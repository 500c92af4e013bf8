import Intranet.Lib.Machine
import Intranet.Lib.Newest
import Intranet.Ref.Sample
import Intranet.Ref.Stream

/-!
# The live window and its sources

A live stream keeps two maps by sequence number, the chunks of its window and
the viewers that hold them. The chunks are always the newest of all that were
produced (`Lib.Newest`), in whatever order they were numbered.

The viewers of a number are those recorded for it, of whatever chunk. A number
that is produced again with another chunk keeps its viewers, which never held
the new one; where this does not happen, they are exactly the sources
(`live_sources_exact_iff`).
-/

namespace Intranet

namespace LiveStream

open Newest (above Contains)

/-! ### Eviction -/

/-- What the loop leaves: chunks within the window, none of the newest gone,
and the holders of each as they were. -/
structure Evicted (full : BTreeMap ChunkSequence Cid)
    (live after : LiveStream) : Prop where
  window_eq : after.window = live.window
  size_le : after.chunks.size ≤ live.window
  contains : Contains live.window full after.chunks
  mem_of_mem : ∀ q ∈ after.chunks, q ∈ live.chunks
  holders_eq : ∀ q ∈ after.chunks,
    after.holders[q]? = live.holders[q]?
  mem_holders : ∀ q, q ∈ after.holders ↔ q ∈ after.chunks

theorem mem_forget_chunks {live : LiveStream} {p q : ChunkSequence} :
    q ∈ (live.forget p).chunks ↔ p ≠ q ∧ q ∈ live.chunks := by
  rw [forget, Std.ExtTreeMap.mem_erase, ne_eq, compare_eq_iff_eq]

theorem mem_forget_holders {live : LiveStream} {p q : ChunkSequence} :
    q ∈ (live.forget p).holders ↔ p ≠ q ∧ q ∈ live.holders := by
  rw [forget, Std.ExtTreeMap.mem_erase, ne_eq, compare_eq_iff_eq]

theorem evict_evicted {full : BTreeMap ChunkSequence Cid} (turns : ℕ)
    {live : LiveStream} (hturns : live.chunks.size ≤ turns)
    (hcontains : Contains live.window full live.chunks)
    (hkeys : ∀ q, q ∈ live.holders ↔ q ∈ live.chunks) :
    Evicted full live (evict turns live) := by
  induction turns generalizing live with
  | zero =>
      exact ⟨rfl, hturns.trans (Nat.zero_le _), hcontains, fun _ h => h,
        fun _ _ => rfl, hkeys⟩
  | succ turns ih =>
      rw [evict]
      split
      · next hmore =>
          split
          · next hnone =>
              have hempty : live.chunks.size = 0 := by
                rw [← Std.ExtTreeMap.length_keys,
                  List.head?_eq_none_iff.1 hnone]
                rfl
              omega
          · next oldest holdest =>
              have hmem : oldest ∈ live.chunks :=
                Std.ExtTreeMap.mem_keys.1 (List.mem_of_head? holdest)
              have hsize : (live.forget oldest).chunks.size =
                  live.chunks.size - 1 := by
                rw [forget, Std.ExtTreeMap.size_erase,
                  if_pos (Std.ExtTreeMap.contains_iff_mem.2 hmem)]
              have hkeys' : ∀ q, q ∈ (live.forget oldest).holders ↔
                  q ∈ (live.forget oldest).chunks := by
                intro q
                rw [mem_forget_holders, mem_forget_chunks, hkeys]
              have hrest := ih (by omega)
                (hcontains.eraseLeast hmore holdest) hkeys'
              refine ⟨hrest.window_eq, hrest.size_le, hrest.contains,
                fun q hq => ?_, fun q hq => ?_, hrest.mem_holders⟩
              · exact (mem_forget_chunks.1 (hrest.mem_of_mem q hq)).2
              · have hne := (mem_forget_chunks.1 (hrest.mem_of_mem q hq)).1
                rw [hrest.holders_eq q hq, forget,
                  BTreeMap.getElem?_erase_ite, if_neg hne]
      · next hfits =>
          exact ⟨rfl, Nat.not_lt.1 hfits, hcontains, fun _ h => h,
            fun _ _ => rfl, hkeys⟩

/-! ### Runs -/

/-- What happens to a live stream. -/
inductive Call where
  | produceChunk (sequence : ChunkSequence) (cid : Cid)
  | recordHolder (sequence : ChunkSequence) (viewer : PerNetworkIdentityId)

def step (live : LiveStream) : Call → Unit × LiveStream
  | .produceChunk sequence cid => ((), live.produceChunk sequence cid)
  | .recordHolder sequence viewer => ((), live.recordHolder sequence viewer)

/-- The chunk each number was last produced with. -/
def produced (calls : List Call) : BTreeMap ChunkSequence Cid :=
  calls.foldl (fun all call => match call with
    | .produceChunk sequence cid => all.insert sequence cid
    | .recordHolder _ _ => all) ∅

/-- A viewer was recorded for a number while the window had that chunk at
it. -/
def Recorded (live : LiveStream) (calls : List Call)
    (sequence : ChunkSequence) (viewer : PerNetworkIdentityId) (cid : Cid) :
    Prop :=
  ∃ pre, pre ++ [.recordHolder sequence viewer] <+: calls ∧
    (sequence, cid) ∈ (Machine.state step live pre).liveWindow

/-- The window has the greatest numbers produced, oldest first, each with the
chunk it was last produced with. -/
structure NewestChunks (window : ℕ) (calls : List Call) (live : LiveStream) :
    Prop where
  oldest_first : live.liveWindow.Pairwise fun a b => a.1 < b.1
  mem_iff : ∀ sequence cid, (sequence, cid) ∈ live.liveWindow ↔
    (produced calls)[sequence]? = some cid ∧
      above (produced calls) sequence < window

/-- The sources of a number are the viewers recorded for the chunk that is now
at it. -/
def SourcesExact (first : LiveStream) (calls : List Call)
    (live : LiveStream) : Prop :=
  ∀ sequence, (live.sourcesFor sequence).Nodup ∧
    ∀ viewer, viewer ∈ live.sourcesFor sequence ↔
      ∃ cid, (sequence, cid) ∈ live.liveWindow ∧
        Recorded first calls sequence viewer cid

/-- A number of the window that has viewers is not produced with another
chunk. -/
def KeepsChunks (live : LiveStream) : Call → Prop
  | .produceChunk sequence cid => ∀ held, (sequence, held) ∈ live.liveWindow →
      live.sourcesFor sequence ≠ [] → cid = held
  | .recordHolder _ _ => True

theorem mem_liveWindow {live : LiveStream} {q : ChunkSequence} {c : Cid} :
    (q, c) ∈ live.liveWindow ↔ live.chunks[q]? = some c :=
  BTreeMap.mem_toList_iff live.chunks (q, c)

theorem mem_sourcesFor {live : LiveStream} {q : ChunkSequence}
    {v : PerNetworkIdentityId} :
    v ∈ live.sourcesFor q ↔ v ∈ live.holders[q]?.getD ∅ := by
  rw [sourcesFor]
  cases live.holders[q]? with
  | none => simp
  | some set => exact Std.ExtTreeSet.mem_toList

theorem nodup_sourcesFor (live : LiveStream) (q : ChunkSequence) :
    (live.sourcesFor q).Nodup := by
  rw [sourcesFor]
  cases live.holders[q]? with
  | none => exact List.nodup_nil
  | some set => exact (BTreeSet.toList_pairwise set).imp fun h => h.ne

theorem produced_snoc (calls : List Call) (call : Call) :
    produced (calls ++ [call]) =
      match call with
      | .produceChunk sequence cid => (produced calls).insert sequence cid
      | .recordHolder _ _ => produced calls := by
  rw [produced, List.foldl_append]
  cases call <;> rfl

theorem Recorded.snoc_iff {first : LiveStream} {calls : List Call}
    {call : Call} {q : ChunkSequence} {v : PerNetworkIdentityId} {c : Cid} :
    Recorded first (calls ++ [call]) q v c ↔
      Recorded first calls q v c ∨
        call = .recordHolder q v ∧
          (Machine.state step first calls).chunks[q]? = some c := by
  constructor
  · rintro ⟨pre, hpre, hc⟩
    rcases List.prefix_concat_iff.1 hpre with heq | hshort
    · obtain ⟨rfl, hone⟩ := List.append_inj' heq rfl
      cases hone
      exact .inr ⟨rfl, mem_liveWindow.1 hc⟩
    · exact .inl ⟨pre, hshort, hc⟩
  · rintro (⟨pre, hpre, hc⟩ | ⟨rfl, hc⟩)
    · exact ⟨pre, hpre.trans (List.prefix_append _ _), hc⟩
    · exact ⟨calls, List.prefix_rfl, mem_liveWindow.2 hc⟩

theorem Recorded.not_nil {first : LiveStream} {q : ChunkSequence}
    {v : PerNetworkIdentityId} {c : Cid} : ¬ Recorded first [] q v c := by
  rintro ⟨pre, hpre, -⟩
  exact absurd (List.prefix_nil.1 hpre) (by simp)

/-- What every run keeps. The viewers of a number are those recorded for it,
of whatever chunk. -/
structure Tracks (first : LiveStream) (calls : List Call)
    (live : LiveStream) : Prop where
  window_eq : live.window = first.window
  size_le : live.chunks.size ≤ first.window
  contains : Contains first.window (produced calls) live.chunks
  mem_holders : ∀ q, q ∈ live.holders ↔ q ∈ live.chunks
  mem_produced : ∀ q v c, Recorded first calls q v c → q ∈ produced calls
  recorded : ∀ q ∈ live.chunks, ∀ v, v ∈ live.sourcesFor q ↔
    ∃ c, Recorded first calls q v c

variable {first live : LiveStream} {calls : List Call} {q : ChunkSequence}
  {v : PerNetworkIdentityId} {c : Cid}

theorem Tracks.chunks_iff (h : Tracks first calls live) :
    live.chunks[q]? = some c ↔
      (produced calls)[q]? = some c ∧ above (produced calls) q < first.window :=
  h.contains.getElem?_eq_some_iff h.size_le

/-- A number that has left the window does not come back. -/
theorem Tracks.gone (h : Tracks first calls live) (hq : q ∈ produced calls)
    (hnot : q ∉ live.chunks) (cid : Cid) :
    first.window ≤ above ((produced calls).insert q cid) q := by
  obtain ⟨c, hc⟩ := (BTreeMap.mem_iff_exists _ _).1 hq
  rw [Newest.above_insert_self]
  by_contra hfew
  have hin := h.chunks_iff.2 ⟨hc, Nat.not_le.1 hfew⟩
  exact hnot ((BTreeMap.mem_iff_exists _ _).2 ⟨c, hin⟩)

/-- What `produceChunk` hands to its loop. -/
def filed (live : LiveStream) (q : ChunkSequence) (cid : Cid) : LiveStream :=
  { live with
    chunks := live.chunks.insert q cid
    holders := live.holders.insert q (live.holders[q]?.getD ∅) }

theorem Tracks.evicted (h : Tracks first calls live) (q : ChunkSequence)
    (cid : Cid) : Evicted ((produced calls).insert q cid) (live.filed q cid)
      (live.produceChunk q cid) := by
  refine evict_evicted _ le_rfl ?_ fun p => ?_
  · have hcontains := h.contains.insert q cid
    rw [← h.window_eq] at hcontains
    exact hcontains
  · rw [filed, BTreeMap.mem_insert_iff, BTreeMap.mem_insert_iff,
      h.mem_holders]

theorem Tracks.chunks_produceChunk (h : Tracks first calls live)
    (q : ChunkSequence) (cid : Cid) {p : ChunkSequence} {c : Cid} :
    (live.produceChunk q cid).chunks[p]? = some c ↔
      ((produced calls).insert q cid)[p]? = some c ∧
        above ((produced calls).insert q cid) p < first.window := by
  have hevicted := h.evicted q cid
  rw [← h.window_eq]
  exact hevicted.contains.getElem?_eq_some_iff hevicted.size_le

/-- The viewers of a number that stays are left as they are. -/
theorem Tracks.sources_produceChunk (h : Tracks first calls live)
    {q p : ChunkSequence} {cid : Cid}
    (hp : p ∈ (live.produceChunk q cid).chunks) :
    v ∈ (live.produceChunk q cid).sourcesFor p ↔ v ∈ live.sourcesFor p := by
  rw [mem_sourcesFor, mem_sourcesFor, (h.evicted q cid).holders_eq p hp, filed,
    BTreeMap.getElem?_insert_ite]
  split
  · next hqp => rw [← hqp, Option.getD_some]
  · rfl

theorem sourcesFor_of_not_mem (hq : q ∉ live.holders) :
    live.sourcesFor q = [] := by
  rw [sourcesFor, (BTreeMap.getElem?_eq_none_iff _ _).2 hq]
  rfl

theorem Recorded.produceChunk_iff {p : ChunkSequence} {cid : Cid} :
    Recorded first (calls ++ [.produceChunk p cid]) q v c ↔
      Recorded first calls q v c := by
  rw [Recorded.snoc_iff]
  simp

/-- A number that comes into the window has not been recorded for. -/
theorem Tracks.not_recorded (h : Tracks first calls live)
    {q p : ChunkSequence} {cid : Cid}
    (hp : p ∈ (live.produceChunk q cid).chunks) (hnew : p ∉ live.chunks) :
    ¬ Recorded first calls p v c := by
  intro hrecorded
  have hmid := (h.evicted q cid).mem_of_mem p hp
  obtain rfl := ((BTreeMap.mem_insert_iff live.chunks q p cid).1
    hmid).resolve_right hnew
  have hgone := h.gone (h.mem_produced _ _ _ hrecorded) hnew cid
  obtain ⟨held, hheld⟩ := (BTreeMap.mem_iff_exists _ _).1 hp
  exact absurd ((h.chunks_produceChunk q cid).1 hheld).2 (Nat.not_lt.2 hgone)

theorem Tracks.produceChunk (h : Tracks first calls live) (q : ChunkSequence)
    (cid : Cid) : Tracks first (calls ++ [.produceChunk q cid])
      (live.produceChunk q cid) := by
  have hevicted := h.evicted q cid
  have hwindow : (live.filed q cid).window = first.window := h.window_eq
  refine ⟨hevicted.window_eq.trans hwindow, hwindow ▸ hevicted.size_le, ?_,
    hevicted.mem_holders, fun p v c hrecorded => ?_, fun p hp v => ?_⟩
  · rw [produced_snoc, ← hwindow]
    exact hevicted.contains
  · rw [Recorded.produceChunk_iff] at hrecorded
    rw [produced_snoc]
    exact (BTreeMap.mem_insert_iff _ _ _ _).2
      (.inr (h.mem_produced p v c hrecorded))
  · simp only [Recorded.produceChunk_iff]
    rw [h.sources_produceChunk hp]
    by_cases hold : p ∈ live.chunks
    · exact h.recorded p hold v
    · rw [sourcesFor_of_not_mem (mt (h.mem_holders p).1 hold)]
      constructor
      · intro hv
        cases hv
      · rintro ⟨c, hrecorded⟩
        exact absurd hrecorded (h.not_recorded hp hold)

/-- A viewer of a number that is held joins the others of that number. -/
theorem Tracks.recordHolder_held (h : Tracks first calls
      (Machine.state step first calls)) (q : ChunkSequence)
    (w : PerNetworkIdentityId) {cid : Cid}
    (hcid : (Machine.state step first calls).chunks[q]? = some cid) :
    Tracks first (calls ++ [.recordHolder q w])
      { Machine.state step first calls with
        holders := (Machine.state step first calls).holders.insert q
          (((Machine.state step first calls).holders[q]?.getD ∅).insert
            w) } := by
  refine ⟨h.window_eq, h.size_le, ?_, fun p => ?_, fun p v c hrec => ?_,
    fun p hp v => ?_⟩
  · rw [produced_snoc]
    exact h.contains
  · rw [BTreeMap.mem_insert_iff, h.mem_holders]
    constructor
    · rintro (rfl | hp)
      · exact (BTreeMap.mem_iff_exists _ _).2 ⟨cid, hcid⟩
      · exact hp
    · exact .inr
  · rw [produced_snoc]
    rcases Recorded.snoc_iff.1 hrec with hrec | ⟨hcall, hc⟩
    · exact h.mem_produced p v c hrec
    · exact h.contains.mem ((BTreeMap.mem_iff_exists _ _).2 ⟨c, hc⟩)
  · have hbefore := h.recorded p hp v
    rw [mem_sourcesFor] at hbefore
    rw [mem_sourcesFor, BTreeMap.getElem?_insert_ite]
    simp only [Recorded.snoc_iff, exists_or, ← hbefore]
    split
    · next hqp =>
        subst hqp
        rw [Option.getD_some, BTreeSet.mem_insert_iff]
        constructor
        · rintro (rfl | hv)
          · exact .inr ⟨cid, rfl, hcid⟩
          · exact .inl hv
        · rintro (hv | ⟨c, heq, -⟩)
          · exact .inr hv
          · cases heq
            exact .inl rfl
    · next hqp =>
        constructor
        · exact .inl
        · rintro (hv | ⟨c, heq, -⟩)
          · exact hv
          · cases heq
            exact absurd rfl hqp

/-- A viewer of a number that is not held is dropped, and is not recorded. -/
theorem Tracks.recordHolder_dropped (h : Tracks first calls
      (Machine.state step first calls)) (q : ChunkSequence)
    (w : PerNetworkIdentityId)
    (hout : q ∉ (Machine.state step first calls).chunks) :
    Tracks first (calls ++ [.recordHolder q w])
      (Machine.state step first calls) := by
  have hsame : ∀ p v c,
      Recorded first (calls ++ [.recordHolder q w]) p v c ↔
        Recorded first calls p v c := by
    intro p v c
    rw [Recorded.snoc_iff]
    constructor
    · rintro (hrec | ⟨heq, hc⟩)
      · exact hrec
      · cases heq
        exact absurd ((BTreeMap.mem_iff_exists _ _).2 ⟨c, hc⟩) hout
    · exact .inl
  refine ⟨h.window_eq, h.size_le, ?_, h.mem_holders, ?_, ?_⟩
  · rw [produced_snoc]
    exact h.contains
  · intro p v c hrec
    rw [produced_snoc]
    exact h.mem_produced p v c ((hsame p v c).1 hrec)
  · simp only [hsame]
    exact h.recorded

theorem Tracks.recordHolder (h : Tracks first calls
      (Machine.state step first calls)) (q : ChunkSequence)
    (w : PerNetworkIdentityId) :
    Tracks first (calls ++ [.recordHolder q w])
      ((Machine.state step first calls).recordHolder q w) := by
  rw [LiveStream.recordHolder]
  split
  · next hin =>
      obtain ⟨cid, hcid⟩ := (BTreeMap.mem_iff_exists _ _).1
        (Std.ExtTreeMap.contains_iff_mem.1 hin)
      exact h.recordHolder_held q w hcid
  · next hout =>
      exact h.recordHolder_dropped q w
        (mt Std.ExtTreeMap.contains_iff_mem.2 hout)

theorem tracks_run (hchunks : first.chunks = ∅) (hholders : first.holders = ∅)
    (calls : List Call) :
    Tracks first calls (Machine.state step first calls) := by
  induction calls using List.reverseRecOn with
  | nil =>
      change Tracks first [] first
      refine ⟨rfl, ?_, ?_, fun q => ?_, fun q v c hrec => ?_, fun q hq => ?_⟩
      · rw [hchunks]
        exact Nat.zero_le _
      · rw [hchunks]
        exact Contains.refl _
      · rw [hchunks, hholders]
        simp
      · exact absurd hrec Recorded.not_nil
      · rw [hchunks] at hq
        simp at hq
  | append_singleton calls call ih =>
      rw [Machine.state_snoc]
      cases call with
      | produceChunk q cid => exact ih.produceChunk q cid
      | recordHolder q w => exact ih.recordHolder q w

theorem Tracks.newestChunks (h : Tracks first calls live) :
    NewestChunks first.window calls live where
  oldest_first := BTreeMap.toList_pairwise live.chunks
  mem_iff := fun _ _ => mem_liveWindow.trans h.chunks_iff

/-! ### The sources -/

/-- The viewers recorded for a number of the window were all recorded for the
chunk that is at it. -/
def Current (first : LiveStream) (calls : List Call) (live : LiveStream) :
    Prop :=
  ∀ q c, live.chunks[q]? = some c →
    ∀ v d, Recorded first calls q v d → d = c

theorem Tracks.sourcesExact (h : Tracks first calls live)
    (hcurrent : Current first calls live) :
    SourcesExact first calls live := by
  intro q
  refine ⟨nodup_sourcesFor live q, fun v => ?_⟩
  by_cases hq : q ∈ live.chunks
  · obtain ⟨held, hheld⟩ := (BTreeMap.mem_iff_exists _ _).1 hq
    rw [h.recorded q hq]
    constructor
    · rintro ⟨c, hrec⟩
      obtain rfl := hcurrent q held hheld v c hrec
      exact ⟨c, mem_liveWindow.2 hheld, hrec⟩
    · rintro ⟨c, -, hrec⟩
      exact ⟨c, hrec⟩
  · rw [sourcesFor_of_not_mem (mt (h.mem_holders q).1 hq)]
    constructor
    · intro hv
      cases hv
    · rintro ⟨c, hc, -⟩
      exact absurd ((BTreeMap.mem_iff_exists _ _).2
        ⟨c, mem_liveWindow.1 hc⟩) hq

theorem chunks_recordHolder (live : LiveStream) (q : ChunkSequence)
    (w : PerNetworkIdentityId) :
    (live.recordHolder q w).chunks = live.chunks := by
  rw [LiveStream.recordHolder]
  split <;> rfl

/-- A call that keeps the chunks that have viewers keeps their records
current. -/
theorem Tracks.current_step {call : Call} (h : Tracks first calls
      (Machine.state step first calls))
    (hcurrent : Current first calls (Machine.state step first calls))
    (hkeeps : KeepsChunks (Machine.state step first calls) call) :
    Current first (calls ++ [call])
      (step (Machine.state step first calls) call).2 := by
  intro p c hc v d hrec
  cases call with
  | produceChunk q cid =>
      rw [Recorded.produceChunk_iff] at hrec
      have hafter := (BTreeMap.mem_iff_exists _ _).2 ⟨c, hc⟩
      have hbefore : p ∈ (Machine.state step first calls).chunks := by
        by_contra hnew
        exact h.not_recorded hafter hnew hrec
      obtain ⟨held, hheld⟩ := (BTreeMap.mem_iff_exists _ _).1 hbefore
      obtain rfl := hcurrent p held hheld v d hrec
      have hfull := ((h.chunks_produceChunk q cid).1 hc).1
      rw [BTreeMap.getElem?_insert_ite] at hfull
      split at hfull
      · next hqp =>
          subst hqp
          have hv := (h.recorded q hbefore v).2 ⟨d, hrec⟩
          have hsame := hkeeps d (mem_liveWindow.2 hheld)
            (List.ne_nil_of_mem hv)
          rw [← hsame]
          exact Option.some.inj hfull
      · rw [(h.chunks_iff.1 hheld).1] at hfull
        exact Option.some.inj hfull
  | recordHolder q w =>
      rw [step, chunks_recordHolder] at hc
      rcases Recorded.snoc_iff.1 hrec with hrec | ⟨heq, hd⟩
      · exact hcurrent p c hc v d hrec
      · cases heq
        rw [hc] at hd
        exact (Option.some.inj hd).symm

/-- Where the sources are exact after it, a call keeps the chunks that have
viewers. -/
theorem Tracks.keepsChunks {call : Call} (h : Tracks first calls
      (Machine.state step first calls))
    (hcurrent : Current first calls (Machine.state step first calls))
    (hexact : SourcesExact first (calls ++ [call])
      (step (Machine.state step first calls) call).2) :
    KeepsChunks (Machine.state step first calls) call := by
  cases call with
  | recordHolder q w => trivial
  | produceChunk q cid =>
      intro held hheld hsome
      rw [mem_liveWindow] at hheld
      obtain ⟨v, hv⟩ := List.exists_mem_of_ne_nil _ hsome
      have hafter : ((Machine.state step first calls).produceChunk q
          cid).chunks[q]? = some cid := by
        rw [h.chunks_produceChunk, Newest.above_insert_self,
          BTreeMap.getElem?_insert_ite, if_pos rfl]
        exact ⟨rfl, (h.chunks_iff.1 hheld).2⟩
      have hstay := (BTreeMap.mem_iff_exists _ _).2 ⟨cid, hafter⟩
      obtain ⟨c, hc, hrec⟩ := ((hexact q).2 v).1
        ((h.sources_produceChunk hstay).2 hv)
      rw [mem_liveWindow, step, hafter, Option.some.injEq] at hc
      rw [Recorded.produceChunk_iff] at hrec
      rw [hc]
      exact hcurrent q held hheld v c hrec

theorem current_run (hchunks : first.chunks = ∅) (hholders : first.holders = ∅)
    (hkeeps : Machine.Along step KeepsChunks first calls) :
    Current first calls (Machine.state step first calls) := by
  induction calls using List.reverseRecOn with
  | nil =>
      intro q c hc
      change first.chunks[q]? = some c at hc
      rw [hchunks] at hc
      simp at hc
  | append_singleton calls call ih =>
      obtain ⟨hpre, hlast⟩ := Machine.along_snoc.1 hkeeps
      rw [Machine.state_snoc]
      exact (tracks_run hchunks hholders calls).current_step (ih hpre) hlast

theorem along_of_sourcesExact (hchunks : first.chunks = ∅)
    (hholders : first.holders = ∅)
    (hexact : ∀ pre, pre <+: calls →
      SourcesExact first pre (Machine.state step first pre)) :
    Machine.Along step KeepsChunks first calls := by
  induction calls using List.reverseRecOn with
  | nil =>
      intro pre call hpre
      exact absurd (List.prefix_nil.1 hpre) (by simp)
  | append_singleton calls call ih =>
      have hpre := ih fun pre hpre =>
        hexact pre (hpre.trans (List.prefix_append _ _))
      have hlast := hexact _ List.prefix_rfl
      rw [Machine.state_snoc] at hlast
      exact Machine.along_snoc.2 ⟨hpre,
        (tracks_run hchunks hholders calls).keepsChunks
          (current_run hchunks hholders hpre) hlast⟩

/-- The live window is that of the newest chunks, whatever is produced in
whatever order. All through a run it is so and the sources of every number are
the viewers recorded for the chunk at it, if and only if no number of the
window that has viewers is produced with another chunk. -/
theorem live_sources_exact_iff (C : Crypto) (stream : StreamId)
    (ledger : CapabilityLedger) (tierSize window : ℕ) (calls : List Call) :
    NewestChunks window calls
        (Machine.state step (start C stream ledger tierSize window) calls) ∧
      ((∀ pre, pre <+: calls →
        NewestChunks window pre
            (Machine.state step (start C stream ledger tierSize window) pre) ∧
          SourcesExact (start C stream ledger tierSize window) pre
            (Machine.state step (start C stream ledger tierSize window)
              pre)) ↔
        Machine.Along step KeepsChunks
          (start C stream ledger tierSize window) calls) := by
  have htracks : ∀ pre, Tracks (start C stream ledger tierSize window) pre
      (Machine.state step (start C stream ledger tierSize window) pre) :=
    tracks_run rfl rfl
  refine ⟨(htracks calls).newestChunks, fun hall => ?_,
    fun hkeeps pre hpre => ?_⟩
  · exact along_of_sourcesExact rfl rfl fun pre hpre => (hall pre hpre).2
  · exact ⟨(htracks pre).newestChunks, (htracks pre).sourcesExact
      (current_run rfl rfl (hkeeps.of_prefix hpre))⟩

/-! ### A chunk that is replaced -/

/-- A broadcast with a window of three, in a network nobody has advertised
in. -/
def emptyStream : LiveStream :=
  start .sample ⟨Sample.hash 3⟩ (.new Sample.network) 1 3

/-- Chunk 1 is produced, identity 2 has it, and the number is produced again
with other content. -/
def replacedChunk : List Call :=
  [.produceChunk ⟨1⟩ ⟨Sample.hash 5⟩, .recordHolder ⟨1⟩ (Sample.identity 2),
    .produceChunk ⟨1⟩ ⟨Sample.hash 6⟩]

/-- Identity 2 is offered as a source for the new chunk, for which it was
never recorded. -/
theorem replaced_chunk_has_sources :
    ¬ SourcesExact emptyStream replacedChunk
      (Machine.state step emptyStream replacedChunk) := by
  intro hexact
  have hsource : Sample.identity 2 ∈
      (Machine.state step emptyStream replacedChunk).sourcesFor ⟨1⟩ := by
    decide +kernel
  have hnow : (Machine.state step emptyStream replacedChunk).chunks[
      (⟨1⟩ : ChunkSequence)]? = some ⟨Sample.hash 6⟩ := by
    decide +kernel
  have hthen : (Machine.state step emptyStream
      [.produceChunk ⟨1⟩ ⟨Sample.hash 5⟩]).chunks[(⟨1⟩ : ChunkSequence)]? =
        some ⟨Sample.hash 5⟩ := by
    decide +kernel
  obtain ⟨c, hc, hrec⟩ := ((hexact ⟨1⟩).2 _).1 hsource
  rw [mem_liveWindow, hnow, Option.some.injEq] at hc
  rcases (@Recorded.snoc_iff emptyStream
      [.produceChunk ⟨1⟩ ⟨Sample.hash 5⟩]
      (.recordHolder ⟨1⟩ (Sample.identity 2)) ⟨1⟩ (Sample.identity 2) c).1
      (Recorded.produceChunk_iff.1 hrec) with hnone | ⟨-, hheld⟩
  · exact Recorded.not_nil ((@Recorded.produceChunk_iff emptyStream [] _ _ _ _
      _).1 hnone)
  · rw [hthen, ← hc] at hheld
    exact absurd hheld (by decide)

end LiveStream

end Intranet
