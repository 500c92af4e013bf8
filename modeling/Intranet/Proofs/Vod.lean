import Intranet.Lib.Checked
import Intranet.Lib.Consecutive
import Intranet.Ref.Sample
import Intranet.Ref.Stream

/-!
# Recordings

Converting a broadcast sorts its chunks and compares neighbours. The sort is
stable, so chunks of one number stay in the order they came; such a list is
refused, and of the lists that are not nothing depends on the order they came
in. What is left is a run of consecutive numbers in its order.

The successor of the greatest number overflows. The loop asks for it when that
number is there twice and nothing before it was refused
(`vod_conversion_exact_iff`).
-/

namespace Intranet

namespace LiveStream

open Consecutive (Run Asks)

/-- The greatest sequence number. -/
def topSequence : ℕ := UInt64.size - 1

/-- The sequence numbers of some chunks. -/
def numbers (chunks : List (ChunkSequence × Cid)) : List ℕ :=
  chunks.map fun chunk => chunk.1.number.toNat

theorem toNat_le_top (s : ChunkSequence) : s.number.toNat ≤ topSequence :=
  Nat.le_sub_one_of_lt s.number.toNat_lt

theorem numbers_le_top (chunks : List (ChunkSequence × Cid)) :
    ∀ n ∈ numbers chunks, n ≤ topSequence := by
  intro n hn
  obtain ⟨chunk, -, rfl⟩ := List.mem_map.1 hn
  exact toNat_le_top chunk.1

/-! ### The successor -/

/-- Of two numbers in order, the second is the successor of the first if it
is one more; the successor that wraps is not in order. -/
theorem eq_next_iff {a b : ChunkSequence} (h : a ≤ b) :
    b = a.next ↔ b.number.toNat = a.number.toNat + 1 := by
  have hb := b.number.toNat_lt
  have hle : a.number.toNat ≤ b.number.toNat := h
  rw [← ChunkSequence.toNat_injective.eq_iff]
  change b.number.toNat = (a.number + 1).toNat ↔ _
  rw [UInt64.toNat_add]
  have hone : (1 : UInt64).toNat = 1 := rfl
  rw [hone]
  omega

theorem nextChecked_checked (s : ChunkSequence) :
    Checked s.nextChecked s.next (s.number.toNat = topSequence) where
  none_of h := if_neg (by
    rw [h, topSequence]
    decide)
  some_of h := if_pos (by
    have hle := toNat_le_top s
    rw [topSequence] at h hle
    omega)

/-! ### The loop -/

theorem checkGaps_checked (chunks : List (ChunkSequence × Cid))
    (hsorted : chunks.Pairwise fun a b => a.1 ≤ b.1) :
    Checked (checkGapsChecked chunks) (checkGaps chunks)
      (Asks topSequence (numbers chunks)) := by
  induction chunks with
  | nil => exact Checked.of_not id
  | cons a chunks ih =>
      cases chunks with
      | nil => exact Checked.of_not id
      | cons b chunks =>
          obtain ⟨hfirst, hrest⟩ := List.pairwise_cons.1 hsorted
          have hnext := eq_next_iff (hfirst b List.mem_cons_self)
          have hbind : checkGapsChecked (a :: b :: chunks) =
              a.1.nextChecked.bind fun next =>
                if b.1 ≠ next then some (.error (.chunkSequenceGap a.1 b.1))
                else checkGapsChecked (b :: chunks) := by
            rw [checkGapsChecked]
            cases a.1.nextChecked <;> rfl
          rw [hbind, checkGaps]
          refine (nextChecked_checked a.1).bind ?_
          by_cases hgap : b.1 = a.1.next
          · rw [if_neg (not_not.2 hgap), if_neg (not_not.2 hgap)]
            exact (ih hrest).congr ⟨fun h => ⟨hnext.1 hgap, h⟩, And.right⟩
          · rw [if_pos hgap, if_pos hgap]
            exact Checked.of_not fun h => hgap (hnext.2 h.1)

/-- Chunks in order pass if every number is followed by its successor. -/
theorem checkGaps_ok_iff (chunks : List (ChunkSequence × Cid))
    (hsorted : chunks.Pairwise fun a b => a.1 ≤ b.1) :
    checkGaps chunks = .ok () ↔
      (numbers chunks).IsChain fun a b => b = a + 1 := by
  induction chunks with
  | nil => exact ⟨fun _ => .nil, fun _ => rfl⟩
  | cons a chunks ih =>
      cases chunks with
      | nil => exact ⟨fun _ => .singleton _, fun _ => rfl⟩
      | cons b chunks =>
          obtain ⟨hfirst, hrest⟩ := List.pairwise_cons.1 hsorted
          have hnext := eq_next_iff (hfirst b List.mem_cons_self)
          have hchain : (numbers (a :: b :: chunks)).IsChain
              (fun a b => b = a + 1) ↔
                b.1.number.toNat = a.1.number.toNat + 1 ∧
                  (numbers (b :: chunks)).IsChain fun a b => b = a + 1 :=
            List.isChain_cons_cons
          rw [checkGaps, hchain, ← hnext, ← ih hrest]
          by_cases hgap : b.1 = a.1.next
          · rw [if_neg (not_not.2 hgap)]
            exact ⟨fun h => ⟨hgap, h⟩, And.right⟩
          · rw [if_pos hgap]
            exact ⟨nofun, fun h => absurd h.1 hgap⟩

/-- The loop looks at the numbers alone. -/
theorem checkGaps_congr {chunks chunks' : List (ChunkSequence × Cid)}
    (h : chunks.map Prod.fst = chunks'.map Prod.fst) :
    checkGaps chunks = checkGaps chunks' := by
  induction chunks generalizing chunks' with
  | nil => rw [List.map_eq_nil_iff.1 h.symm]
  | cons a chunks ih =>
      obtain ⟨a', chunks', rfl, ha, hrest⟩ := List.map_eq_cons_iff.1 h.symm
      cases chunks with
      | nil =>
          rw [List.map_eq_nil_iff.1 hrest]
          rfl
      | cons b chunks =>
          obtain ⟨b', chunks', rfl, hb, hlast⟩ := List.map_eq_cons_iff.1 hrest
          rw [checkGaps, checkGaps, ih hrest.symm, ha, hb]

/-! ### The order -/

theorem inOrder_perm (chunks : List (ChunkSequence × Cid)) :
    (inOrder chunks).Perm chunks :=
  List.perm_insertionSort _ chunks

theorem inOrder_pairwise (chunks : List (ChunkSequence × Cid)) :
    (inOrder chunks).Pairwise fun a b => a.1 ≤ b.1 := by
  have : IsTrans (ChunkSequence × Cid) fun a b => a.1 ≤ b.1 :=
    ⟨fun _ _ _ => le_trans⟩
  have : Std.Total fun a b : ChunkSequence × Cid => a.1 ≤ b.1 :=
    ⟨fun a b => le_total a.1 b.1⟩
  exact List.pairwise_insertionSort _ chunks

theorem map_fst_inOrder {chunks chunks' : List (ChunkSequence × Cid)}
    (h : chunks.Perm chunks') :
    (inOrder chunks).map Prod.fst = (inOrder chunks').map Prod.fst := by
  have hperm := ((inOrder_perm chunks).trans h).trans
    (inOrder_perm chunks').symm
  exact (hperm.map Prod.fst).eq_of_pairwise'
    (List.pairwise_map.2 (inOrder_pairwise chunks))
    (List.pairwise_map.2 (inOrder_pairwise chunks'))

theorem numbers_inOrder_pairwise (chunks : List (ChunkSequence × Cid)) :
    (numbers (inOrder chunks)).Pairwise (· ≤ ·) :=
  List.pairwise_map.2 (inOrder_pairwise chunks)

theorem numbers_inOrder_perm (chunks : List (ChunkSequence × Cid)) :
    (numbers (inOrder chunks)).Perm (numbers chunks) :=
  (inOrder_perm chunks).map _

/-- A list that is put in order passes if its numbers are a run. -/
theorem checkGaps_inOrder_iff (chunks : List (ChunkSequence × Cid)) :
    checkGaps (inOrder chunks) = .ok () ↔ Run (numbers chunks) := by
  have hperm := numbers_inOrder_perm chunks
  rw [checkGaps_ok_iff _ (inOrder_pairwise chunks),
    ← Consecutive.run_iff_isChain (numbers_inOrder_pairwise chunks),
    Consecutive.run_iff_perm, Consecutive.run_iff_perm, hperm.length_eq]
  exact exists_congr fun first => hperm.congr_left _

/-- In such a list no two chunks have one number. -/
theorem inOrder_strict {chunks : List (ChunkSequence × Cid)}
    (h : Run (numbers chunks)) :
    (inOrder chunks).Pairwise fun a b => a.1 < b.1 := by
  have hnodup : (numbers (inOrder chunks)).Nodup :=
    (numbers_inOrder_perm chunks).nodup_iff.2 h.1
  refine ((inOrder_pairwise chunks).and
    (List.pairwise_map.1 hnodup)).imp fun hab => ?_
  exact lt_of_le_of_ne hab.1 fun heq => hab.2 (by rw [heq])

/-! ### The conversion -/

/-- No operator overflows, there is a manifest for a run of numbers and for
nothing else, it has the chunks in order, and it does not depend on the order
they came in. -/
structure VodExact (live : LiveStream)
    (allChunks : List (ChunkSequence × Cid)) (plaintextLen : UInt64) :
    Prop where
  no_overflow : live.intoVodChecked allChunks plaintextLen .enabled =
    some (live.intoVod allChunks plaintextLen .enabled)
  manifest_iff : (∃ manifest,
      live.intoVod allChunks plaintextLen .enabled = .ok (some manifest)) ↔
    allChunks ≠ [] ∧ Run (numbers allChunks)
  in_order : ∀ manifest,
    live.intoVod allChunks plaintextLen .enabled = .ok (some manifest) →
      manifest.plaintextLen = plaintextLen.toNat ∧
        ∃ ordered : List (ChunkSequence × Cid), ordered.Perm allChunks ∧
          (ordered.Pairwise fun a b => a.1 < b.1) ∧
          manifest.chunks = ordered.map Prod.snd
  perm : ∀ allChunks', allChunks.Perm allChunks' →
    live.intoVod allChunks' plaintextLen .enabled =
      live.intoVod allChunks plaintextLen .enabled

/-- The greatest sequence number is there more than once, and the others are
a run up to it, each once. -/
def TopRepeated (allChunks : List (ChunkSequence × Cid)) : Prop :=
  ∃ below again, below ≤ topSequence ∧
    (numbers allChunks).Perm (List.range' (topSequence - below) below ++
      List.replicate (again + 2) topSequence)

variable {live : LiveStream} {allChunks : List (ChunkSequence × Cid)}
  {plaintextLen : UInt64}

theorem intoVod_enabled (live : LiveStream)
    (allChunks : List (ChunkSequence × Cid)) (plaintextLen : UInt64) :
    live.intoVod allChunks plaintextLen .enabled =
      if allChunks.isEmpty then .error .emptyBroadcast
      else (checkGaps (inOrder allChunks)).map fun _ =>
        some ⟨(inOrder allChunks).map Prod.snd, plaintextLen.toNat⟩ :=
  rfl

theorem asks_inOrder_iff (chunks : List (ChunkSequence × Cid)) :
    Asks topSequence (numbers (inOrder chunks)) ↔ TopRepeated chunks := by
  have hperm := numbers_inOrder_perm chunks
  have hsorted := numbers_inOrder_pairwise chunks
  rw [Consecutive.asks_iff hsorted (numbers_le_top _)]
  constructor
  · rintro ⟨below, again, hbelow, heq⟩
    exact ⟨below, again, hbelow, hperm.symm.trans (heq ▸ List.Perm.refl _)⟩
  · rintro ⟨below, again, hbelow, hnumbers⟩
    exact ⟨below, again, hbelow, (hperm.trans hnumbers).eq_of_pairwise'
      hsorted (Consecutive.pairwise_topRepeated hbelow again)⟩

theorem intoVod_checked (live : LiveStream)
    (allChunks : List (ChunkSequence × Cid)) (plaintextLen : UInt64) :
    Checked (live.intoVodChecked allChunks plaintextLen .enabled)
      (live.intoVod allChunks plaintextLen .enabled)
      (TopRepeated allChunks) := by
  cases allChunks with
  | nil =>
      refine Checked.of_not ?_
      rw [← asks_inOrder_iff]
      exact id
  | cons chunk rest =>
      have hloop := (checkGaps_checked _ (inOrder_pairwise (chunk :: rest))).map
        fun checked => checked.map fun _ =>
          some (Manifest.mk ((inOrder (chunk :: rest)).map Prod.snd)
            plaintextLen.toNat)
      exact hloop.congr (asks_inOrder_iff (chunk :: rest))

/-- There is a manifest for a run, and it has the chunks in order. -/
theorem intoVod_eq_some_iff {manifest : Manifest} :
    live.intoVod allChunks plaintextLen .enabled = .ok (some manifest) ↔
      allChunks ≠ [] ∧ Run (numbers allChunks) ∧
        manifest = ⟨(inOrder allChunks).map Prod.snd, plaintextLen.toNat⟩ := by
  cases allChunks with
  | nil =>
      constructor
      · exact nofun
      · exact fun h => absurd rfl h.1
  | cons chunk rest =>
      rw [intoVod_enabled, if_neg (by simp), ← checkGaps_inOrder_iff]
      cases checkGaps (inOrder (chunk :: rest)) with
      | error err => simp [Except.map]
      | ok _ => simp [Except.map, eq_comm]

theorem intoVod_perm {allChunks' : List (ChunkSequence × Cid)}
    (h : allChunks.Perm allChunks') :
    live.intoVod allChunks' plaintextLen .enabled =
      live.intoVod allChunks plaintextLen .enabled := by
  have hgaps : checkGaps (inOrder allChunks') = checkGaps (inOrder allChunks) :=
    checkGaps_congr (map_fst_inOrder h.symm)
  rw [intoVod_enabled, intoVod_enabled, h.isEmpty_eq, hgaps]
  split
  · rfl
  · cases hpass : checkGaps (inOrder allChunks) with
    | error err => rfl
    | ok _ =>
        have hrun := (checkGaps_inOrder_iff allChunks).1 hpass
        have hrun' := (checkGaps_inOrder_iff allChunks').1 (hgaps.trans hpass)
        have hsame : inOrder allChunks' = inOrder allChunks := by
          refine SortedList.eq_of_mem_iff Prod.fst (inOrder_strict hrun')
            (inOrder_strict hrun) fun chunk => ?_
          rw [(inOrder_perm allChunks').mem_iff, (inOrder_perm allChunks).mem_iff,
            h.mem_iff]
        rw [hsame]

/-- A conversion is exact unless the greatest sequence number is there more
than once and the others are a run up to it. -/
theorem vod_conversion_exact_iff (live : LiveStream)
    (allChunks : List (ChunkSequence × Cid)) (plaintextLen : UInt64) :
    live.VodExact allChunks plaintextLen ↔ ¬ TopRepeated allChunks := by
  have hchecked := intoVod_checked live allChunks plaintextLen
  constructor
  · intro h
    exact hchecked.eq_some_iff.1 h.no_overflow
  · intro h
    refine ⟨hchecked.eq_some_iff.2 h, ?_, ?_, fun _ => intoVod_perm⟩
    · simp only [intoVod_eq_some_iff, exists_and_left, exists_eq, and_true]
    · intro manifest hmanifest
      obtain ⟨-, hrun, rfl⟩ := intoVod_eq_some_iff.1 hmanifest
      exact ⟨rfl, inOrder allChunks, inOrder_perm allChunks,
        inOrder_strict hrun, rfl⟩

/-! ### The last number of all, twice -/

/-- Two chunks under the greatest sequence number. -/
def lastTwice : List (ChunkSequence × Cid) :=
  [(⟨0xFFFFFFFFFFFFFFFF⟩, ⟨Sample.hash 5⟩),
    (⟨0xFFFFFFFFFFFFFFFF⟩, ⟨Sample.hash 6⟩)]

/-- A broadcast in a network nobody has advertised in. -/
def finished : LiveStream :=
  start .sample ⟨Sample.hash 3⟩ (.new Sample.network) 1 3

/-- The successor of the first overflows, and a build that checks stops. -/
theorem last_number_twice_overflows :
    finished.intoVodChecked lastTwice 10 .enabled = none ∧
      ¬ finished.VodExact lastTwice 10 := by
  have hnone : (finished.intoVodChecked lastTwice 10 .enabled).isNone =
      true := by
    decide +kernel
  rw [Option.isNone_iff_eq_none] at hnone
  refine ⟨hnone, fun hexact => ?_⟩
  have hsome := hexact.no_overflow
  rw [hnone] at hsome
  cases hsome

end LiveStream

end Intranet
