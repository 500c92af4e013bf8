import Intranet.Lib.Network

/-!
# Two nodes that ask in turn

The smallest network in which everything arrives: two nodes that ask each
other for ever, in turn, and each question is answered before the next is
put. If neither learns anything from it (`Settled`), this is a run in which
every message arrives next (`turns_only`), and both keep asking (`turns_ask`).
-/

namespace Network

variable {N M A O : Type} {P : Protocol Bool N M A O} {nodes : Bool → N}
  {call : Bool → A} {ask reply : Bool → M}

/-- A question and its answer leave both nodes as they are. -/
structure Settled (P : Protocol Bool N M A O) (nodes : Bool → N)
    (call : Bool → A) (ask reply : Bool → M) : Prop where
  act : ∀ i, P.act i (call i) (nodes i) = (nodes i, some (!i, ask i))
  answer : ∀ i, (P.receive (!i) i (ask i) (nodes (!i))).2 =
    (nodes (!i), some (reply i))
  heard : ∀ i, (P.receive i (!i) (reply i) (nodes i)).2 = (nodes i, none)

/-- Three steps for each turn: a question, its arrival, and that of the
answer. -/
def turns (call : Bool → A) (first n : ℕ) : Action Bool A :=
  if n % 3 = 0 then .act (n / 3 % 2 = 0) (call (n / 3 % 2 = 0))
  else .deliver (first + 2 * (n / 3) + (n % 3 - 1))

/-- `nodes` with nothing under way. -/
structure Rests (nodes : Bool → N) (id : ℕ) (net : Net Bool N M) : Prop where
  nodes : net.nodes = nodes
  nextId : net.nextId = id
  idle : net.inflight = ∅

variable {net : Net Bool N M} {packet found : Packet Bool M} {id k : ℕ}

/-- `nodes` with one message under way. -/
structure Holds (nodes : Bool → N) (id : ℕ) (packet : Packet Bool M)
    (net : Net Bool N M) : Prop where
  nodes : net.nodes = nodes
  nextId : net.nextId = id + 1
  only : net.inflight = (∅ : BTreeMap ℕ _).insert id packet

theorem Holds.eq (h : Holds nodes id packet net)
    (hfound : net.inflight[k]? = some found) : k = id ∧ found = packet := by
  rw [h.only, BTreeMap.getElem?_insert_ite] at hfound
  split at hfound
  · next heq =>
      cases hfound
      exact ⟨heq.symm, rfl⟩
  · simp at hfound

theorem Holds.under (h : Holds nodes id packet net) :
    net.inflight[id]? = some packet := by
  rw [h.only]
  simp

theorem Holds.take (h : Holds nodes id packet net) :
    Rests nodes (id + 1) (net.take id) := by
  refine ⟨h.nodes, h.nextId, ?_⟩
  show net.inflight.erase id = ∅
  rw [h.only]
  refine Std.ExtTreeMap.ext_getElem? fun k => ?_
  rw [BTreeMap.getElem?_erase_ite, BTreeMap.getElem?_insert_ite]
  split <;> simp

theorem Rests.send (h : Rests nodes id net) (packet : Packet Bool M) :
    Holds nodes id packet (net.send packet) := by
  refine ⟨h.nodes, congrArg (· + 1) h.nextId, ?_⟩
  show net.inflight.insert net.nextId packet = _
  rw [h.idle, h.nextId]

theorem Rests.set (h : Rests nodes id net) (i : Bool) :
    Rests nodes id (net.set i (nodes i)) := by
  refine ⟨?_, h.nextId, h.idle⟩
  show Function.update net.nodes i (nodes i) = nodes
  rw [h.nodes, Function.update_eq_self]

theorem Settled.asked (h : Settled P nodes call ask reply)
    (hnet : Rests nodes id net) (i : Bool) :
    Holds nodes id ⟨i, !i, ask i⟩ (step P net (.act i (call i))).2 := by
  unfold step
  simp only [hnet.nodes, h.act]
  exact (hnet.set i).send _

theorem Settled.told (h : Settled P nodes call ask reply) {i : Bool}
    (hnet : Holds nodes id ⟨i, !i, ask i⟩ net) :
    Holds nodes (id + 1) ⟨!i, i, reply i⟩ (step P net (.deliver id)).2 := by
  rw [step_deliver hnet.under]
  unfold arrive
  simp only [hnet.take.nodes, h.answer]
  exact (hnet.take.set (!i)).send _

theorem Settled.done (h : Settled P nodes call ask reply) {i : Bool}
    (hnet : Holds nodes id ⟨!i, i, reply i⟩ net) :
    Rests nodes (id + 1) (step P net (.deliver id)).2 := by
  rw [step_deliver hnet.under]
  unfold arrive
  simp only [hnet.take.nodes, h.heard]
  exact hnet.take.set i

theorem turns_first (call : Bool → A) (first n : ℕ) :
    turns call first (3 * n) = .act (n % 2 = 0) (call (n % 2 = 0)) := by
  simp [turns]

theorem turns_second (call : Bool → A) (first n : ℕ) :
    turns call first (3 * n + 1) = .deliver (first + 2 * n) := by
  unfold turns
  rw [if_neg (by omega)]
  congr 1
  omega

theorem turns_third (call : Bool → A) (first n : ℕ) :
    turns call first (3 * n + 2) = .deliver (first + 2 * n + 1) := by
  unfold turns
  rw [if_neg (by omega)]
  congr 1
  omega

/-- Both keep asking. -/
theorem turns_ask (call : Bool → A) (first n : ℕ) (i : Bool) :
    ∃ m, n ≤ m ∧ turns call first m = .act i (call i) := by
  refine ⟨3 * (2 * n + (if i then 0 else 1)), by omega, ?_⟩
  rw [turns_first]
  cases i <;> simp [Nat.add_mod]

/-- Each asks the other, so the two are connected. -/
theorem turns_linked (i j : Bool) :
    Relation.ReflTransGen (fun i j => j = !i) i j := by
  by_cases hij : i = j
  · rw [hij]
  · exact .single (by cases i <;> cases j <;> simp at hij ⊢)

/-- Every third state is at rest. -/
theorem Settled.rests (h : Settled P nodes call ask reply) {first : ℕ}
    {start : Net Bool N M} (hstart : Rests nodes first start) (n : ℕ) :
    Rests nodes (first + 2 * n)
      (Machine.after (step P) start (turns call first) (3 * n)) := by
  induction n with
  | zero => exact hstart
  | succ n ih =>
      have hthird := h.done (h.told (h.asked ih (n % 2 = 0)))
      rw [← turns_first call first, ← turns_second call first,
        ← turns_third call first] at hthird
      exact hthird

/-- What is under way is a question or an answer, and arrives next. -/
theorem Settled.turns_only (h : Settled P nodes call ask reply) {first : ℕ}
    {start : Net Bool N M} (hstart : Rests nodes first start) (n : ℕ)
    (hfound : (Machine.after (step P) start
      (turns call first) n).inflight[id]? = some packet) :
    turns call first n = .deliver id ∧
      ∃ i, packet.message = ask i ∨ packet.message = reply i := by
  have hrests := h.rests hstart (n / 3)
  have hasked := h.asked hrests (n / 3 % 2 = 0)
  have htold := h.told hasked
  rw [← turns_first call first] at hasked htold
  rw [← turns_second call first] at htold
  have hcases : n = 3 * (n / 3) ∨ n = 3 * (n / 3) + 1 ∨
      n = 3 * (n / 3) + 2 := by
    omega
  rcases hcases with hn | hn | hn
  · rw [hn, hrests.idle] at hfound
    simp at hfound
  · rw [hn] at hfound ⊢
    obtain ⟨rfl, rfl⟩ := hasked.eq hfound
    exact ⟨turns_second call first _, _, .inl rfl⟩
  · rw [hn] at hfound ⊢
    obtain ⟨rfl, rfl⟩ := htold.eq hfound
    exact ⟨turns_third call first _, _, .inr rfl⟩

theorem Settled.arrives (h : Settled P nodes call ask reply) {first : ℕ}
    {start : Net Bool N M} (hstart : Rests nodes first start) :
    Arrives (turns call first)
      (Machine.after (step P) start (turns call first)) := by
  intro n id hid
  obtain ⟨packet, hpacket⟩ := (BTreeMap.mem_iff_exists _ _).1 hid
  exact ⟨n, le_rfl, hid, (h.turns_only hstart n hpacket).1⟩

end Network
