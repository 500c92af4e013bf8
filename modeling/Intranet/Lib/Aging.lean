import Mathlib

/-!
# Stores that forget what is not refreshed

Nodes with clocks of their own each keep a store. A store takes in messages,
some of them the replies of other stores, and drops what has become old by
its node's clock. Something that is no longer refreshed should be gone from
all of them once every clock is past some deadline and every node has looked.

That needs two things of the steps on the way. What is taken in has to be
dated so that it is old by the deadline, and nobody whose clock is past the
deadline may take it in again. `gone` says that these are enough, and
`stays_gone` that replies cannot bring back what no store has.
-/

namespace Aging

variable {ι T S M Q : Type}

/-- What a store does with a message, at a reading of the clock, and for a
request. -/
structure Store (T S M Q : Type) where
  take : S → M → S
  expire : S → T → S
  reply : S → Q → M

structure Node (T S : Type) where
  clock : T
  store : S

inductive Action (ι T M Q : Type) where
  | tick (i : ι) (now : T)
  | expire (i : ι)
  | take (i : ι) (m : M)
  | pull (i j : ι) (q : Q)

section

variable [DecidableEq ι] [LE T] [DecidableLE T]

/-- One action. A clock is never set back. -/
def step (A : Store T S M Q) (s : ι → Node T S) :
    Action ι T M Q → ι → Node T S
  | .tick i now =>
      if (s i).clock ≤ now then Function.update s i ⟨now, (s i).store⟩ else s
  | .expire i => Function.update s i
      ⟨(s i).clock, A.expire (s i).store (s i).clock⟩
  | .take i m => Function.update s i ⟨(s i).clock, A.take (s i).store m⟩
  | .pull i j q => Function.update s i
      ⟨(s i).clock, A.take (s i).store (A.reply (s j).store q)⟩

def run (A : Store T S M Q) (s : ι → Node T S) (as : List (Action ι T M Q)) :
    ι → Node T S :=
  as.foldl (step A) s

end

/-- What the rules ask of a store: `holds` and `carries` say that a store or a
message has something of the kind that is to go, `dated` that whatever it has
of the kind is old by the deadline, and `past` is a clock past it. -/
structure Forgets [LE T] (A : Store T S M Q) (past : T → Prop)
    (holds dated : S → Prop) (carries datedM : M → Prop) : Prop where
  past_of_le : ∀ t t', t ≤ t' → past t → past t'
  expire : ∀ s t, holds (A.expire s t) → holds s
  dated_expire : ∀ s t, dated s → dated (A.expire s t)
  drops : ∀ s t, dated s → past t → ¬ holds (A.expire s t)
  take : ∀ s m, holds (A.take s m) → holds s ∨ carries m
  dated_take : ∀ s m, dated s → datedM m → dated (A.take s m)
  reply : ∀ s q, carries (A.reply s q) → holds s
  dated_reply : ∀ s q, dated s → datedM (A.reply s q)

/-- An action that takes in only what is dated, and nothing of the kind past
the deadline. -/
def Timely (A : Store T S M Q) (past : T → Prop) (carries datedM : M → Prop)
    (s : ι → Node T S) : Action ι T M Q → Prop
  | .tick _ _ => True
  | .expire _ => True
  | .take i m => datedM m ∧ (carries m → ¬ past (s i).clock)
  | .pull i j q => carries (A.reply (s j).store q) → ¬ past (s i).clock

/-- An action that brings in nothing of the kind from outside. -/
def Quiet (carries : M → Prop) : Action ι T M Q → Prop
  | .take _ m => ¬ carries m
  | _ => True

section

variable [DecidableEq ι] [LE T] [DecidableLE T] {A : Store T S M Q}
  {past : T → Prop} {holds dated : S → Prop} {carries datedM : M → Prop}
  {s : ι → Node T S} {as : List (Action ι T M Q)} {a : Action ι T M Q}

/-- Every action of a run is timely where it is taken. -/
def TimelyRun (A : Store T S M Q) (past : T → Prop)
    (carries datedM : M → Prop) (s : ι → Node T S)
    (as : List (Action ι T M Q)) : Prop :=
  ∀ pre a post, as = pre ++ a :: post →
    Timely A past carries datedM (run A s pre) a

/-- Every node expires once its clock is past the deadline. -/
def ExpiredPast (A : Store T S M Q) (past : T → Prop) (s : ι → Node T S)
    (as : List (Action ι T M Q)) : Prop :=
  ∀ i, ∃ pre post, as = pre ++ .expire i :: post ∧
    past (run A s pre i).clock

theorem run_append (as bs : List (Action ι T M Q)) :
    run A s (as ++ bs) = run A (run A s as) bs :=
  List.foldl_append

theorem run_cons (a : Action ι T M Q) (as : List (Action ι T M Q)) :
    run A s (a :: as) = run A (step A s a) as :=
  rfl

/-- What a step does to one node: it moves the clock on, expires, or takes in
a message that is timely where the action is. -/
theorem step_cases (i : ι) (ha : Timely A past carries datedM s a) :
    step A s a i = s i ∨
      (∃ now, (s i).clock ≤ now ∧ step A s a i = ⟨now, (s i).store⟩) ∨
      step A s a i = ⟨(s i).clock, A.expire (s i).store (s i).clock⟩ ∨
      ∃ m, (datedM m ∨ ∃ j q, m = A.reply (s j).store q) ∧
        (carries m → ¬ past (s i).clock) ∧
        step A s a i = ⟨(s i).clock, A.take (s i).store m⟩ := by
  cases a with
  | tick k now =>
      rw [step]
      split
      · next hle =>
          by_cases hk : i = k
          · subst hk
            exact Or.inr (Or.inl ⟨now, hle, Function.update_self ..⟩)
          · exact Or.inl (Function.update_of_ne hk ..)
      · exact Or.inl rfl
  | expire k =>
      by_cases hk : i = k
      · subst hk
        exact Or.inr (Or.inr (Or.inl (Function.update_self ..)))
      · exact Or.inl (Function.update_of_ne hk ..)
  | take k m =>
      by_cases hk : i = k
      · subst hk
        refine Or.inr (Or.inr (Or.inr ⟨m, Or.inl ha.1, ha.2, ?_⟩))
        exact Function.update_self ..
      · exact Or.inl (Function.update_of_ne hk ..)
  | pull k j q =>
      by_cases hk : i = k
      · subst hk
        refine Or.inr (Or.inr (Or.inr ⟨_, Or.inr ⟨j, q, rfl⟩, ha, ?_⟩))
        exact Function.update_self ..
      · exact Or.inl (Function.update_of_ne hk ..)

theorem TimelyRun.nil : TimelyRun A past carries datedM s [] := by
  intro pre b post hsplit
  rw [List.nil_eq_append_iff] at hsplit
  cases hsplit.2

theorem TimelyRun.cons (ha : Timely A past carries datedM s a)
    (has : TimelyRun A past carries datedM (step A s a) as) :
    TimelyRun A past carries datedM s (a :: as) := by
  intro pre b post hsplit
  cases pre with
  | nil =>
      rw [List.nil_append, List.cons.injEq] at hsplit
      rw [← hsplit.1]
      exact ha
  | cons c pre =>
      rw [List.cons_append, List.cons.injEq] at hsplit
      rw [← hsplit.1, run_cons]
      exact has pre b post hsplit.2

theorem TimelyRun.head (h : TimelyRun A past carries datedM s (a :: as)) :
    Timely A past carries datedM s a :=
  h [] a as rfl

theorem TimelyRun.tail (h : TimelyRun A past carries datedM s (a :: as)) :
    TimelyRun A past carries datedM (step A s a) as := by
  intro pre b post hsplit
  exact h (a :: pre) b post (by rw [hsplit, List.cons_append])

theorem TimelyRun.drop {pre : List (Action ι T M Q)}
    (h : TimelyRun A past carries datedM s (pre ++ as)) :
    TimelyRun A past carries datedM (run A s pre) as := by
  intro mid b post hsplit
  rw [← run_append]
  exact h (pre ++ mid) b post (by rw [hsplit, List.append_assoc])

theorem TimelyRun.take {pre post : List (Action ι T M Q)}
    (h : TimelyRun A past carries datedM s (pre ++ post)) :
    TimelyRun A past carries datedM s pre := by
  intro mid b rest hsplit
  refine h mid b (rest ++ post) ?_
  rw [hsplit, List.append_assoc, List.cons_append]

theorem dated_step (h : Forgets A past holds dated carries datedM)
    (hs : ∀ i, dated (s i).store) (ha : Timely A past carries datedM s a)
    (i : ι) : dated (step A s a i).store := by
  rcases step_cases i ha with hsame | ⟨now, _, htick⟩ | hexpire |
    ⟨m, hm, _, htake⟩
  · rw [hsame]
    exact hs i
  · rw [htick]
    exact hs i
  · rw [hexpire]
    exact h.dated_expire _ _ (hs i)
  · rw [htake]
    refine h.dated_take _ _ (hs i) ?_
    rcases hm with hm | ⟨j, q, rfl⟩
    · exact hm
    · exact h.dated_reply _ _ (hs j)

theorem dated_run (h : Forgets A past holds dated carries datedM)
    (hs : ∀ i, dated (s i).store)
    (has : TimelyRun A past carries datedM s as) (i : ι) :
    dated (run A s as i).store := by
  induction as generalizing s with
  | nil => exact hs i
  | cons a as ih => exact ih (dated_step h hs has.head) has.tail

/-- Past the deadline and without anything of the kind. -/
def Free (past : T → Prop) (holds : S → Prop) (node : Node T S) : Prop :=
  past node.clock ∧ ¬ holds node.store

theorem free_step (h : Forgets A past holds dated carries datedM) {i : ι}
    (hi : Free past holds (s i)) (ha : Timely A past carries datedM s a) :
    Free past holds (step A s a i) := by
  rcases step_cases i ha with hsame | ⟨now, hle, htick⟩ | hexpire |
    ⟨m, _, hlate, htake⟩
  · rwa [hsame]
  · rw [htick]
    exact ⟨h.past_of_le _ _ hle hi.1, hi.2⟩
  · rw [hexpire]
    exact ⟨hi.1, fun hholds => hi.2 (h.expire _ _ hholds)⟩
  · rw [htake]
    refine ⟨hi.1, fun hholds => ?_⟩
    rcases h.take _ _ hholds with hheld | hcarries
    · exact hi.2 hheld
    · exact hlate hcarries hi.1

theorem free_run (h : Forgets A past holds dated carries datedM) {i : ι}
    (hi : Free past holds (s i))
    (has : TimelyRun A past carries datedM s as) :
    Free past holds (run A s as i) := by
  induction as generalizing s with
  | nil => exact hi
  | cons a as ih => exact ih (free_step h hi has.head) has.tail

/-- Once every node has expired past the deadline, nothing of the kind is
left anywhere. -/
theorem gone (h : Forgets A past holds dated carries datedM)
    (hs : ∀ i, dated (s i).store)
    (has : TimelyRun A past carries datedM s as)
    (hexpired : ExpiredPast A past s as) (i : ι) :
    ¬ holds (run A s as i).store := by
  obtain ⟨pre, post, rfl, hpast⟩ := hexpired i
  have hfree : Free past holds (run A s (pre ++ [.expire i]) i) := by
    rw [run_append]
    show Free past holds (Function.update (run A s pre) i _ i)
    rw [Function.update_self]
    exact ⟨hpast, h.drops _ _ (dated_run h hs has.take i) hpast⟩
  rw [← List.singleton_append, ← List.append_assoc] at has ⊢
  rw [run_append]
  exact (free_run h hfree has.drop).2

theorem stays_gone (h : Forgets A past holds dated carries datedM)
    (hs : ∀ i, ¬ holds (s i).store)
    (has : ∀ a ∈ as, Quiet carries a) (i : ι) :
    ¬ holds (run A s as i).store := by
  induction as generalizing s with
  | nil => exact hs i
  | cons a as ih =>
      refine ih (fun k hholds => ?_)
        fun b hb => has b (List.mem_cons_of_mem a hb)
      have hquiet : Timely A (fun _ => False) carries
          (fun m => ¬ carries m) s a := by
        have ha := has a List.mem_cons_self
        cases a with
        | tick => trivial
        | expire => trivial
        | take => exact ⟨ha, fun _ => id⟩
        | pull => exact fun _ => id
      rcases step_cases k hquiet with hsame | ⟨now, _, htick⟩ | hexpire |
        ⟨m, hm, _, htake⟩
      · rw [hsame] at hholds
        exact hs k hholds
      · rw [htick] at hholds
        exact hs k hholds
      · rw [hexpire] at hholds
        exact hs k (h.expire _ _ hholds)
      · rw [htake] at hholds
        rcases h.take _ _ hholds with hheld | hcarries
        · exact hs k hheld
        · rcases hm with hm | ⟨j, q, rfl⟩
          · exact hm hcarries
          · exact hs j (h.reply _ _ hcarries)

end

end Aging
