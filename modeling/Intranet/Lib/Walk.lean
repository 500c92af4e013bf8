import Mathlib

/-!
# Walking up a parent map

`par` gives each node at most one parent. `collect` follows it from a cursor
and returns what it passed, topmost first; `meets` only asks whether it
passed one given node. Both run on fuel.

When some rank falls along every parent link, the fuel is bookkeeping: any
fuel above the start's rank gives the same answer (`collect_congr`), and the
answer is the whole ancestry, each node once and the start last
(`mem_collect`, `nodup_collect`, `collect_some`). That rank is all a caller
has to supply.
-/

namespace Walk

variable {K : Type}

/-- Follows `par` from the cursor, consing every node onto `path`. -/
def collect (par : K → Option K) : ℕ → Option K → List K → List K
  | 0, _, path => path
  | _ + 1, none, path => path
  | fuel + 1, some current, path =>
      collect par fuel (par current) (current :: path)

/-- Follows `par` from the cursor until it stands on `target`. -/
def meets [DecidableEq K] (par : K → Option K) (target : K) :
    ℕ → Option K → Bool
  | 0, _ => false
  | _ + 1, none => false
  | fuel + 1, some current =>
      if current = target then true else meets par target fuel (par current)

/-- `a` is `h`, or lies above it. -/
def Above (par : K → Option K) (a h : K) : Prop :=
  Relation.ReflTransGen (fun x y => par x = some y) h a

variable {par : K → Option K}

theorem Above.refl (h : K) : Above par h h := Relation.ReflTransGen.refl

theorem Above.trans {a b c : K} (hab : Above par a b) (hbc : Above par b c) :
    Above par a c :=
  Relation.ReflTransGen.trans hbc hab

theorem above_iff {a h : K} :
    Above par a h ↔ a = h ∨ ∃ p, par h = some p ∧ Above par a p := by
  rw [Above, Relation.ReflTransGen.cases_head_iff]
  constructor
  · intro hcase
    rcases hcase with rfl | ⟨p, hp, hup⟩
    · exact Or.inl rfl
    · exact Or.inr ⟨p, hp, hup⟩
  · intro hcase
    rcases hcase with rfl | ⟨p, hp, hup⟩
    · exact Or.inl rfl
    · exact Or.inr ⟨p, hp, hup⟩

/-- Two nodes above the same one are comparable: the parent map is a
function, so the walk has no choice. -/
theorem Above.total {a b h : K} (ha : Above par a h) (hb : Above par b h) :
    Above par a b ∨ Above par b a := by
  have huniq : Relator.RightUnique fun x y => par x = some y := by
    intro x y z hy hz
    exact Option.some.inj (hy.symm.trans hz)
  exact (Relation.ReflTransGen.total_of_right_unique huniq ha hb).symm

theorem collect_append (fuel : ℕ) (cursor : Option K) (path : List K) :
    collect par fuel cursor path = collect par fuel cursor [] ++ path := by
  induction fuel generalizing cursor path with
  | zero => rfl
  | succ fuel ih =>
      cases cursor with
      | none => rfl
      | some current =>
          rw [collect, collect, ih, ih _ [current], List.append_assoc]
          rfl

theorem meets_iff_mem_collect [DecidableEq K] (target : K) (fuel : ℕ)
    (cursor : Option K) :
    meets par target fuel cursor = true ↔ target ∈ collect par fuel cursor [] := by
  induction fuel generalizing cursor with
  | zero => simp [meets, collect]
  | succ fuel ih =>
      cases cursor with
      | none => simp [meets, collect]
      | some current =>
          rw [meets, collect, collect_append, List.mem_append, List.mem_singleton]
          by_cases hc : current = target
          · rw [if_pos hc]
            exact iff_of_true rfl (Or.inr hc.symm)
          · rw [if_neg hc, ih]
            exact (or_iff_left fun h => hc h.symm).symm

theorem collect_none (fuel : ℕ) : collect par fuel none [] = [] := by
  cases fuel <;> rfl

section Ranked

variable {rank : K → ℕ} (hrank : ∀ h p, par h = some p → rank p < rank h)
include hrank

theorem Above.rank_le {a h : K} (hup : Above par a h) : rank a ≤ rank h := by
  induction hup with
  | refl => exact le_rfl
  | tail _ hlink ih => exact (hrank _ _ hlink).le.trans ih

/-- Nothing lies strictly above itself. -/
theorem Above.antisymm {a b : K} (hab : Above par a b) (hba : Above par b a) :
    a = b := by
  rcases above_iff.1 hab with rfl | ⟨p, hp, hup⟩
  · rfl
  · have h1 := hrank _ _ hp
    have h2 := Above.rank_le hrank hup
    have h3 := Above.rank_le hrank hba
    omega

/-- Any two fuels above the cursor's rank collect the same nodes. -/
theorem collect_congr (fuel₁ fuel₂ : ℕ) (cursor : Option K) (path : List K)
    (h₁ : ∀ h ∈ cursor, rank h < fuel₁) (h₂ : ∀ h ∈ cursor, rank h < fuel₂) :
    collect par fuel₁ cursor path = collect par fuel₂ cursor path := by
  induction fuel₁ generalizing fuel₂ cursor path with
  | zero =>
      cases cursor with
      | none => cases fuel₂ <;> rfl
      | some current => exact absurd (h₁ current rfl) (Nat.not_lt_zero _)
  | succ fuel₁ ih =>
      cases cursor with
      | none => cases fuel₂ <;> rfl
      | some current =>
          obtain ⟨m, rfl⟩ : ∃ m, fuel₂ = m + 1 :=
            ⟨fuel₂ - 1, by have := h₂ current rfl; omega⟩
          have hs₁ := h₁ current rfl
          have hs₂ := h₂ current rfl
          rw [collect, collect]
          refine ih m _ _ (fun p hp => ?_) (fun p hp => ?_)
          · have := hrank _ _ hp
            omega
          · have := hrank _ _ hp
            omega

/-- One step of the walk, read from the start upwards. -/
theorem collect_some {fuel : ℕ} {h : K} (hf : rank h < fuel) :
    collect par fuel (some h) [] = collect par fuel (par h) [] ++ [h] := by
  obtain ⟨m, rfl⟩ : ∃ m, fuel = m + 1 := ⟨fuel - 1, by omega⟩
  rw [collect, collect_append]
  congr 1
  refine collect_congr hrank m (m + 1) _ _ (fun p hp => ?_) (fun p hp => ?_)
  · have := hrank _ _ hp
    omega
  · have := hrank _ _ hp
    omega

/-- What the walk collects is exactly what lies above its start. -/
theorem mem_collect {fuel : ℕ} {h a : K} (hf : rank h < fuel) :
    a ∈ collect par fuel (some h) [] ↔ Above par a h := by
  induction hr : rank h using Nat.strong_induction_on generalizing h with
  | _ n ih =>
      rw [collect_some hrank hf, List.mem_append, List.mem_singleton, above_iff]
      cases hp : par h with
      | none =>
          rw [collect_none]
          simp
      | some p =>
          have hlt := hrank _ _ hp
          rw [ih (rank p) (by omega) (by omega) rfl]
          simp only [Option.some.injEq, exists_eq_left']
          exact or_comm

theorem nodup_collect {fuel : ℕ} {h : K} (hf : rank h < fuel) :
    (collect par fuel (some h) []).Nodup := by
  induction hr : rank h using Nat.strong_induction_on generalizing h with
  | _ n ih =>
      rw [collect_some hrank hf]
      cases hp : par h with
      | none =>
          rw [collect_none]
          simp
      | some p =>
          have hlt := hrank _ _ hp
          refine List.Nodup.append (ih (rank p) (by omega) (by omega) rfl)
            (List.nodup_singleton h) ?_
          -- `h` itself cannot lie above its own parent
          intro x hx hxh
          rw [List.mem_singleton] at hxh
          rw [mem_collect hrank (by omega), hxh] at hx
          have := Above.rank_le hrank hx
          omega

end Ranked

end Walk
