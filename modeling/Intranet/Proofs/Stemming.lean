import Intranet.Proofs.Search

/-!
# Where singular and plural meet

The stemmer tries its suffixes in a fixed order, and an "s" last. A word that
has none of them stays as it is. With an "s" behind it, it can have "ies",
"es" and "s", the first two if it ends in "e". So an "s" comes off again
exactly from the words that do not (`singular_plural_iff`): from a word that
does, a longer suffix takes the "e" as well.
-/

namespace Intranet

/-- What the tables say of lowercase ASCII letters: each is alphanumeric, and
a word of them is in lower case. -/
structure UnicodeTables.Ascii (U : UnicodeTables) : Prop where
  alphanumeric : ∀ c : Char, 'a' ≤ c → c ≤ 'z' → U.isAlphanumeric c = true
  lowercase : ∀ w : String, (∀ c ∈ w.toList, 'a' ≤ c ∧ c ≤ 'z') →
    U.toLowercase w = w

/-- A character takes a byte at least. -/
theorem length_le_utf8ByteSize (w : String) :
    w.toList.length ≤ w.utf8ByteSize := by
  have hlist : ∀ l : List Char, l.length ≤ (String.ofList l).utf8ByteSize := by
    intro l
    induction l with
    | nil => exact Nat.zero_le _
    | cons c l ih =>
        have hpos := c.utf8Size_pos
        rw [String.ofList_cons, String.utf8ByteSize_append,
          String.utf8ByteSize_singleton, List.length_cons]
        omega
  have hw := hlist w.toList
  rwa [String.ofList_toList] at hw

/-! ## One suffix -/

/-- The suffixes, in the order they are tried. -/
def stemSuffixes : List String :=
  ["ingly", "edly", "ing", "ies", "ed", "es", "s"]

/-- What taking one suffix off leaves, if that is long enough. -/
def stripOne (word suffix : String) : Option String :=
  match stripSuffix word suffix with
  | none => none
  | some root =>
      if 3 ≤ root.utf8ByteSize then
        some (if suffix = "ies" then root ++ "y" else root)
      else none

theorem stem_eq (word : String) : stem word =
    if word.utf8ByteSize ≤ 3 then word
    else (stemSuffixes.findSome? (stripOne word)).getD word := rfl

variable {word suffix root : String}

theorem stripOne_of_not_suffix (h : ¬ suffix.toList <:+ word.toList) :
    stripOne word suffix = none := by
  rw [stripOne, stripSuffix, if_neg h]

theorem stripSuffix_append (root suffix : String) :
    stripSuffix (root ++ suffix) suffix = some root := by
  rw [stripSuffix, String.toList_append, if_pos (List.suffix_append _ _),
    List.length_append, Nat.add_sub_cancel, List.take_left,
    String.ofList_toList]

theorem stripOne_append (hroot : 3 ≤ root.toList.length) :
    stripOne (root ++ suffix) suffix =
      some (if suffix = "ies" then root ++ "y" else root) := by
  rw [stripOne, stripSuffix_append]
  exact if_pos (hroot.trans (length_le_utf8ByteSize root))

theorem exists_root (h : suffix.toList <:+ word.toList) :
    ∃ root, word = root ++ suffix := by
  obtain ⟨front, hfront⟩ := h
  refine ⟨String.ofList front, String.toList_inj.1 ?_⟩
  rw [String.toList_append, String.toList_ofList, hfront]

/-- What is left is the root, or the root with a "y". -/
theorem stripOne_some {stemmed : String}
    (h : stripOne word suffix = some stemmed) :
    ∃ root, word = root ++ suffix ∧
      stemmed = if suffix = "ies" then root ++ "y" else root := by
  by_cases hsuffix : suffix.toList <:+ word.toList
  · obtain ⟨root, rfl⟩ := exists_root hsuffix
    rw [stripOne, stripSuffix_append] at h
    dsimp only at h
    split at h
    · cases h
      exact ⟨root, rfl, rfl⟩
    · cases h
  · rw [stripOne_of_not_suffix hsuffix] at h
    cases h

/-- A word with none of the suffixes is its own stem. -/
theorem stem_bare
    (h : ∀ suffix ∈ stemSuffixes, ¬ suffix.toList <:+ word.toList) :
    stem word = word := by
  rw [stem_eq]
  split
  · rfl
  · rw [List.findSome?_eq_none_iff.2 fun suffix hsuffix =>
      stripOne_of_not_suffix (h suffix hsuffix)]
    rfl

/-! ## An "s" -/

theorem toList_plural (word : String) :
    (word ++ "s").toList = word.toList ++ ['s'] := String.toList_append

/-- A suffix of a word with an "s" behind it ends in that "s". -/
theorem suffix_plural (front : List Char) {c : Char}
    (h : front ++ [c] <:+ (word ++ "s").toList) :
    c = 's' ∧ front <:+ word.toList := by
  rw [toList_plural, List.suffix_concat_iff] at h
  rcases h with hnil | ⟨t, heq, ht⟩
  · simp at hnil
  · obtain ⟨rfl, hc⟩ := List.append_inj' heq rfl
    exact ⟨List.singleton_inj.1 hc, ht⟩

/-- The suffixes that do not end in "s" are not tried with success, and of
those that do, the first needs an "e" to end the word. -/
theorem stem_plural_eq (hlong : 4 ≤ word.toList.length) :
    stem (word ++ "s") =
      (["ies", "es", "s"].findSome? (stripOne (word ++ "s"))).getD
        (word ++ "s") := by
  have hsize : ¬ (word ++ "s").utf8ByteSize ≤ 3 := by
    have hle := length_le_utf8ByteSize (word ++ "s")
    rw [toList_plural, List.length_append, List.length_singleton] at hle
    omega
  have hother : ∀ (front : List Char) (c : Char), c ≠ 's' →
      stripOne (word ++ "s") (String.ofList (front ++ [c])) = none := by
    intro front c hc
    refine stripOne_of_not_suffix fun hsuffix => hc ?_
    rw [String.toList_ofList] at hsuffix
    exact (suffix_plural front hsuffix).1
  have hingly := hother ['i', 'n', 'g', 'l'] 'y' (by decide)
  have hedly := hother ['e', 'd', 'l'] 'y' (by decide)
  have hing := hother ['i', 'n'] 'g' (by decide)
  have hed := hother ['e'] 'd' (by decide)
  rw [stem_eq, if_neg hsize]
  simp only [stemSuffixes, List.findSome?_cons]
  rw [show "ingly" = String.ofList (['i', 'n', 'g', 'l'] ++ ['y']) from rfl,
    hingly, show "edly" = String.ofList (['e', 'd', 'l'] ++ ['y']) from rfl,
    hedly, show "ing" = String.ofList (['i', 'n'] ++ ['g']) from rfl, hing,
    show "ed" = String.ofList (['e'] ++ ['d']) from rfl, hed]

/-- From a word that does not end in "e", the "s" comes off. -/
theorem stem_plural (hlong : 4 ≤ word.toList.length)
    (he : ¬ "e".toList <:+ word.toList) : stem (word ++ "s") = word := by
  have hies : stripOne (word ++ "s") "ies" = none := by
    refine stripOne_of_not_suffix fun hsuffix => he ?_
    have hie := (suffix_plural ['i', 'e'] hsuffix).2
    exact List.IsSuffix.trans ⟨['i'], rfl⟩ hie
  have hes : stripOne (word ++ "s") "es" = none := by
    refine stripOne_of_not_suffix fun hsuffix => he ?_
    exact (suffix_plural ['e'] hsuffix).2
  have hs : stripOne (word ++ "s") "s" = some word :=
    stripOne_append (by omega)
  rw [stem_plural_eq hlong]
  simp only [List.findSome?_cons, hies, hes, hs]
  rfl

/-- From a word that ends in "e", more comes off than the "s". -/
theorem length_stem_plural (hlong : 4 ≤ word.toList.length)
    (he : "e".toList <:+ word.toList) :
    (stem (word ++ "s")).toList.length + 1 = word.toList.length := by
  obtain ⟨root, rfl⟩ := exists_root he
  have hroot : 3 ≤ root.toList.length := by
    rw [String.toList_append, List.length_append] at hlong
    exact Nat.le_of_succ_le_succ hlong
  rw [stem_plural_eq hlong]
  simp only [List.findSome?_cons]
  split
  · next stemmed hies =>
    obtain ⟨front, hfront, rfl⟩ := stripOne_some hies
    have hlen := congrArg (fun w => w.toList.length) hfront
    simp only [String.toList_append, List.length_append] at hlen ⊢
    simp at hlen ⊢
    omega
  · have hes : stripOne (root ++ "e" ++ "s") "es" = some root := by
      rw [String.append_assoc]
      exact stripOne_append hroot
    rw [hes, String.toList_append, List.length_append]
    rfl

/-! ## Words -/

/-- The words in question: lowercase letters, at least four, no stop word,
and nothing at the end for the stemmer to take off. -/
structure Regular (word : String) : Prop where
  letters : ∀ c ∈ word.toList, 'a' ≤ c ∧ c ≤ 'z'
  long : 4 ≤ word.toList.length
  common : word ∉ stopWords
  last : ¬ "s".toList <:+ word.toList ∧ ¬ "y".toList <:+ word.toList
  bare : ∀ suffix ∈ stemSuffixes, ¬ suffix.toList <:+ word.toList

variable {U : UnicodeTables}

/-- A word of lowercase letters, with a stem of a few, is one term. -/
theorem tokenize_word (hU : U.Ascii)
    (hletters : ∀ c ∈ word.toList, 'a' ≤ c ∧ c ≤ 'z')
    (hlong : 2 ≤ word.toList.length) (hcommon : word ∉ stopWords)
    (hstem : 2 ≤ (stem word).toList.length) :
    tokenize U word = [⟨stem word⟩] := by
  have hwhole : word.toList.splitOnP (fun c => !U.isAlphanumeric c) =
      [word.toList] := by
    refine List.splitOnP_eq_singleton fun c hc => ?_
    rw [hU.alphanumeric c (hletters c hc).1 (hletters c hc).2]
    rfl
  have hterm : termOf U word = some ⟨stem word⟩ := by
    have hsize := length_le_utf8ByteSize word
    have hstemSize := length_le_utf8ByteSize (stem word)
    simp only [termOf, hU.lowercase word hletters, minTokenLen]
    rw [if_neg, if_pos (by omega)]
    rw [Bool.or_eq_true, decide_eq_true_eq, List.contains_iff_mem]
    rintro (hshort | hstop)
    · omega
    · exact hcommon hstop
  rw [tokenize, hwhole, List.filterMap_cons, String.ofList_toList, hterm]
  rfl

theorem plural_not_stop_word (hlong : 4 ≤ word.toList.length) :
    word ++ "s" ∉ stopWords := by
  intro hmem
  have hshort : ∀ stop ∈ stopWords, stop.toList.length ≤ 4 := by decide
  have hle := hshort _ hmem
  rw [toList_plural, List.length_append, List.length_singleton] at hle
  omega

/-- A word and the word with an "s" behind it are the same term exactly if the
word does not end in "e". -/
theorem singular_plural_iff (U : UnicodeTables) (hU : U.Ascii) (word : String)
    (hword : Regular word) :
    tokenize U word = tokenize U (word ++ "s") ↔
      ¬ "e".toList <:+ word.toList := by
  have hlong := hword.long
  have hstem := stem_bare hword.bare
  have hletters : ∀ c ∈ (word ++ "s").toList, 'a' ≤ c ∧ c ≤ 'z' := by
    intro c hc
    rw [toList_plural] at hc
    rcases List.mem_append.1 hc with hc | hc
    · exact hword.letters c hc
    · rw [List.mem_singleton.1 hc]
      decide
  have hplural : 5 ≤ (word ++ "s").toList.length := by
    rw [toList_plural, List.length_append, List.length_singleton]
    omega
  have hleft : tokenize U word = [⟨word⟩] := by
    have htokens := tokenize_word hU hword.letters (by omega) hword.common
      (by rw [hstem]; omega)
    rwa [hstem] at htokens
  have hright : 2 ≤ (stem (word ++ "s")).toList.length →
      tokenize U (word ++ "s") = [⟨stem (word ++ "s")⟩] :=
    tokenize_word hU hletters (by omega) (plural_not_stop_word hlong)
  by_cases he : "e".toList <:+ word.toList
  · have hlen := length_stem_plural hlong he
    rw [hleft, hright (by omega)]
    refine iff_of_false (fun heq => ?_) (not_not.2 he)
    have hsame : word = stem (word ++ "s") :=
      congrArg Term.text (List.singleton_inj.1 heq)
    rw [← hsame] at hlen
    omega
  · have hsame := stem_plural hlong he
    rw [hleft, hright (by rw [hsame]; omega), hsame]
    exact iff_of_true rfl he

namespace LocalIndex

theorem asciiTables_ascii : asciiTables.Ascii where
  alphanumeric c ha hz := by
    have hlower : c.isLower = true := by
      simp only [Char.isLower, Bool.and_eq_true, decide_eq_true_eq]
      exact ⟨ha, hz⟩
    simp [asciiTables, Char.isAlphanum, Char.isAlpha, hlower]
  lowercase w hw := by
    have hmap : w.toList.map Char.toLower = w.toList := by
      refine List.map_congr_left (g := id) (fun c hc => dif_neg ?_) |>.trans
        (List.map_id _)
      rintro ⟨-, hupper⟩
      exact absurd ((hw c hc).1.trans hupper) (by decide)
    change String.ofList (w.toList.map Char.toLower) = w
    rw [hmap, String.ofList_toList]

end LocalIndex

theorem regular_network : Regular "network" where
  letters := by simp
  long := by decide
  common := by decide +kernel
  last := by decide
  bare := by decide

/-- What the tests of the crate sample. -/
theorem singular_plural_iff_network :
    tokenize LocalIndex.asciiTables "network" =
        tokenize LocalIndex.asciiTables ("network" ++ "s") ↔
      ¬ "e".toList <:+ "network".toList :=
  singular_plural_iff _ LocalIndex.asciiTables_ascii _ regular_network

/-- "table" stays, and "tables" becomes "tabl". -/
theorem table_misses_tables : ¬ ∀ word, Regular word →
    tokenize LocalIndex.asciiTables word =
      tokenize LocalIndex.asciiTables (word ++ "s") := by
  intro hall
  have hregular : Regular "table" :=
    ⟨by simp, by decide, by decide +kernel, by decide, by decide⟩
  exact absurd (hall "table" hregular) (by decide +kernel)

end Intranet
