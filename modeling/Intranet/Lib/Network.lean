import Intranet.Lib.BTree
import Intranet.Lib.Fair

/-!
# Networks of nodes that answer each other

A node acts by itself, which may send one message, and takes messages, each of
which it may answer. Messages are kept under fresh numbers. Each arrives once,
at any time and in any order, or is lost.

A message is made from two nodes as they are, and arrives when both have moved
on. `Keeps` is what makes that harmless: nodes move along an order, and what
is genuine between two nodes stays so as they do. Then every node keeps its
invariant and every message under way is genuine, in every run (`sane_run`).

For what comes about in the end: numbers are not used twice (`Ages`), so
a message that is not lost arrives as it was sent (`arrives_as_sent`).
-/

namespace Network

structure Packet (ι M : Type) where
  source : ι
  target : ι
  message : M
deriving DecidableEq

/-- The nodes and the messages between them. -/
structure Net (ι N M : Type) where
  nodes : ι → N
  nextId : ℕ
  inflight : BTreeMap ℕ (Packet ι M)

/-- What a node does. `act` may send a message to a peer, `receive` may answer
the peer the message came from. -/
structure Protocol (ι N M A O : Type) where
  act : ι → A → N → N × Option (ι × M)
  receive : ι → ι → M → N → O × N × Option M

/-- What can happen. -/
inductive Action (ι A : Type) where
  | act (node : ι) (call : A)
  | deliver (id : ℕ)
  | lose (id : ℕ)

variable {ι N M A O : Type}

namespace Net

/-- Nobody has sent anything yet. -/
def start (nodes : ι → N) : Net ι N M := ⟨nodes, 0, ∅⟩

def send (net : Net ι N M) (packet : Packet ι M) : Net ι N M :=
  { net with
    nextId := net.nextId + 1
    inflight := net.inflight.insert net.nextId packet }

def take (net : Net ι N M) (id : ℕ) : Net ι N M :=
  { net with inflight := net.inflight.erase id }

variable [DecidableEq ι]

def set (net : Net ι N M) (i : ι) (node : N) : Net ι N M :=
  { net with nodes := Function.update net.nodes i node }

end Net

variable [DecidableEq ι]

/-- A message reaches its target. -/
def arrive (P : Protocol ι N M A O) (net : Net ι N M) (packet : Packet ι M) :
    O × Net ι N M :=
  let done := P.receive packet.target packet.source packet.message
    (net.nodes packet.target)
  let net := net.set packet.target done.2.1
  (done.1, done.2.2.elim net fun answer =>
    net.send ⟨packet.target, packet.source, answer⟩)

def step (P : Protocol ι N M A O) (net : Net ι N M) :
    Action ι A → Option O × Net ι N M
  | .act i call =>
      let done := P.act i call (net.nodes i)
      let net := net.set i done.1
      (none, done.2.elim net fun sent => net.send ⟨i, sent.1, sent.2⟩)
  | .deliver id =>
      net.inflight[id]?.elim (none, net) fun packet =>
        let done := arrive P (net.take id) packet
        (some done.1, done.2)
  | .lose id => (none, net.take id)

theorem step_missing {P : Protocol ι N M A O} {net : Net ι N M} {id : ℕ}
    (h : net.inflight[id]? = none) :
    step P net (.deliver id) = (none, net) := by
  unfold step
  simp only [h]
  rfl

theorem step_deliver {P : Protocol ι N M A O} {net : Net ι N M} {id : ℕ}
    {packet : Packet ι M} (h : net.inflight[id]? = some packet) :
    step P net (.deliver id) = (some (arrive P (net.take id) packet).1,
      (arrive P (net.take id) packet).2) := by
  unfold step
  simp only [h]
  rfl

/-! ## What every run keeps -/

/-- Nodes keep `Inv` and move along `le`; what they send is `Genuine` between
sender and receiver, and stays so. Calls are as `allowed`, and what is reported
is `Good`. -/
structure Keeps (P : Protocol ι N M A O) (Inv : ι → N → Prop)
    (le : N → N → Prop) (Genuine : ι → ι → N → N → M → Prop)
    (allowed : ι → A → Prop) (Good : O → Prop) : Prop where
  refl : ∀ n, le n n
  trans : ∀ {a b c}, le a b → le b c → le a c
  mono : ∀ {i j s s' t t' m}, le s s' → le t t' → Genuine i j s t m →
    Genuine i j s' t' m
  act : ∀ {i n call}, Inv i n → allowed i call →
    Inv i (P.act i call n).1 ∧ le n (P.act i call n).1 ∧
      ∀ j m, (P.act i call n).2 = some (j, m) → ∀ t, Inv j t →
        Genuine i j (P.act i call n).1 t m
  receive : ∀ {i j n s m}, Inv i n → Inv j s → Genuine j i s n m →
    Inv i (P.receive i j m n).2.1 ∧ le n (P.receive i j m n).2.1 ∧
      Good (P.receive i j m n).1 ∧
      ∀ answer, (P.receive i j m n).2.2 = some answer →
        Genuine i j (P.receive i j m n).2.1 s answer

variable {P : Protocol ι N M A O} {Inv : ι → N → Prop} {le : N → N → Prop}
  {Genuine : ι → ι → N → N → M → Prop} {allowed : ι → A → Prop}
  {Good : O → Prop} {net next : Net ι N M} {packet : Packet ι M} {id : ℕ}

/-- Every node keeps its invariant and every message is genuine. -/
structure Sane (Inv : ι → N → Prop) (Genuine : ι → ι → N → N → M → Prop)
    (net : Net ι N M) : Prop where
  inv : ∀ i, Inv i (net.nodes i)
  genuine : ∀ (id : ℕ) packet, net.inflight[id]? = some packet →
    Genuine packet.source packet.target (net.nodes packet.source)
      (net.nodes packet.target) packet.message
  numbered : ∀ id ∈ net.inflight, id < net.nextId

/-- No node has moved back. -/
def Grows (le : N → N → Prop) (net next : Net ι N M) : Prop :=
  ∀ i, le (net.nodes i) (next.nodes i)

omit [DecidableEq ι] in
theorem sane_start {nodes : ι → N} (h : ∀ i, Inv i (nodes i)) :
    Sane Inv Genuine (Net.start nodes) where
  inv := h
  genuine id packet hfound := by simp [Net.start] at hfound
  numbered id hid := absurd hid Std.ExtTreeMap.not_mem_empty

omit [DecidableEq ι] in
theorem Sane.send (h : Sane Inv Genuine net)
    (hpacket : Genuine packet.source packet.target (net.nodes packet.source)
      (net.nodes packet.target) packet.message) :
    Sane Inv Genuine (net.send packet) where
  inv := h.inv
  genuine other found hfound := by
    rw [show (net.send packet).inflight = net.inflight.insert net.nextId packet
      from rfl, BTreeMap.getElem?_insert_ite] at hfound
    split at hfound
    · cases hfound
      exact hpacket
    · exact h.genuine other found hfound
  numbered other hother := by
    show other < net.nextId + 1
    rcases (BTreeMap.mem_insert_iff _ _ _ _).1 hother with rfl | hother
    · exact Nat.lt_succ_self _
    · exact Nat.lt_succ_of_lt (h.numbered other hother)

omit [DecidableEq ι] in
theorem Sane.take (h : Sane Inv Genuine net) (id : ℕ) :
    Sane Inv Genuine (net.take id) where
  inv := h.inv
  genuine other found hfound := by
    rw [show (net.take id).inflight = net.inflight.erase id from rfl,
      BTreeMap.getElem?_erase_ite] at hfound
    split at hfound
    · cases hfound
    · exact h.genuine other found hfound
  numbered other hother :=
    h.numbered other (Std.ExtTreeMap.mem_of_mem_erase hother)

theorem set_nodes_self (i : ι) (node : N) : (net.set i node).nodes i = node :=
  Function.update_self _ _ _

theorem Keeps.grows_set (hkeeps : Keeps P Inv le Genuine allowed Good) {i : ι}
    {node : N} (hle : le (net.nodes i) node) :
    Grows le net (net.set i node) := by
  intro k
  show le (net.nodes k) (Function.update net.nodes i node k)
  by_cases hk : k = i
  · subst hk
    rwa [Function.update_self]
  · rw [Function.update_of_ne hk]
    exact hkeeps.refl _

theorem Keeps.sane_set (hkeeps : Keeps P Inv le Genuine allowed Good)
    (h : Sane Inv Genuine net) {i : ι} {node : N} (hinv : Inv i node)
    (hle : le (net.nodes i) node) : Sane Inv Genuine (net.set i node) where
  inv k := by
    show Inv k (Function.update net.nodes i node k)
    by_cases hk : k = i
    · subst hk
      rwa [Function.update_self]
    · rw [Function.update_of_ne hk]
      exact h.inv k
  genuine id packet hfound :=
    hkeeps.mono (hkeeps.grows_set hle _) (hkeeps.grows_set hle _)
      (h.genuine id packet hfound)
  numbered := h.numbered

/-- What a step is to leave behind. -/
structure Follows (Inv : ι → N → Prop) (le : N → N → Prop)
    (Genuine : ι → ι → N → N → M → Prop) (Good : O → Prop) (net : Net ι N M)
    (done : Option O × Net ι N M) : Prop where
  sane : Sane Inv Genuine done.2
  grows : Grows le net done.2
  good : ∀ report ∈ done.1, Good report

theorem Keeps.arrive (hkeeps : Keeps P Inv le Genuine allowed Good)
    (h : Sane Inv Genuine net)
    (hpacket : Genuine packet.source packet.target (net.nodes packet.source)
      (net.nodes packet.target) packet.message) :
    Sane Inv Genuine (arrive P net packet).2 ∧
      Grows le net (arrive P net packet).2 ∧ Good (arrive P net packet).1 := by
  obtain ⟨hinv, hle, hgood, hanswer⟩ :=
    hkeeps.receive (h.inv packet.target) (h.inv packet.source) hpacket
  have hset := hkeeps.sane_set h hinv hle
  have hgrows : Grows le net (net.set packet.target _) :=
    hkeeps.grows_set hle
  unfold Network.arrive
  simp only
  cases hnext : (P.receive packet.target packet.source packet.message
      (net.nodes packet.target)).2.2 with
  | none => exact ⟨hset, hgrows, hgood⟩
  | some answer =>
      refine ⟨hset.send ?_, hgrows, hgood⟩
      rw [show (⟨packet.target, packet.source, answer⟩ : Packet ι M).source =
        packet.target from rfl, set_nodes_self]
      exact hkeeps.mono (hkeeps.refl _) (hgrows _) (hanswer answer hnext)

theorem Keeps.step (hkeeps : Keeps P Inv le Genuine allowed Good)
    (h : Sane Inv Genuine net) (action : Action ι A)
    (hallowed : ∀ i call, action = .act i call → allowed i call) :
    Follows Inv le Genuine Good net (step P net action) := by
  cases action with
  | act i call =>
      obtain ⟨hinv, hle, hsent⟩ := hkeeps.act (h.inv i) (hallowed i call rfl)
      have hset := hkeeps.sane_set h hinv hle
      have hgrows : Grows le net (net.set i _) := hkeeps.grows_set hle
      unfold Network.step
      simp only
      cases hnext : (P.act i call (net.nodes i)).2 with
      | none => exact ⟨hset, hgrows, fun report hreport => by cases hreport⟩
      | some sent =>
          obtain ⟨j, m⟩ := sent
          refine ⟨hset.send ?_, hgrows, fun report hreport => by cases hreport⟩
          rw [show (⟨i, j, m⟩ : Packet ι M).source = i from rfl, set_nodes_self]
          exact hsent j m hnext _ (hset.inv j)
  | lose id =>
      exact ⟨h.take id, fun i => hkeeps.refl _,
        fun report hreport => by cases hreport⟩
  | deliver id =>
      cases hpacket : net.inflight[id]? with
      | none =>
          rw [step_missing hpacket]
          exact ⟨h, fun i => hkeeps.refl _,
            fun report hreport => by cases hreport⟩
      | some packet =>
          obtain ⟨hsane, hgrows, hgood⟩ :=
            hkeeps.arrive (h.take id) (h.genuine id packet hpacket)
          rw [step_deliver hpacket]
          refine ⟨hsane, hgrows, fun report hreport => ?_⟩
          cases hreport
          exact hgood

/-- What the nodes are asked to do in a run. -/
def Calls (allowed : ι → A → Prop) (actions : List (Action ι A)) : Prop :=
  ∀ action ∈ actions, ∀ i call, action = .act i call → allowed i call

theorem Keeps.run (hkeeps : Keeps P Inv le Genuine allowed Good)
    (h : Sane Inv Genuine net) {actions : List (Action ι A)}
    (hcalls : Calls allowed actions) :
    Sane Inv Genuine (Machine.state (Network.step P) net actions) ∧
      Grows le net (Machine.state (Network.step P) net actions) ∧
      ∀ answer ∈ Machine.answers (Network.step P) net actions,
        ∀ report, answer = some report → Good report := by
  obtain ⟨hsane, hgrows, hgood⟩ := Machine.history_of (P := fun es s =>
    Sane Inv Genuine s ∧ Grows le net s ∧
      ∀ e ∈ es, ∀ report ∈ e.2, Good report) hcalls
    ⟨h, fun i => hkeeps.refl _, fun e he => by cases he⟩
    (fun es s action hallowed hso => by
      have hfollows := hkeeps.step hso.1 action hallowed
      refine ⟨hfollows.sane,
        fun i => hkeeps.trans (hso.2.1 i) (hfollows.grows i),
        fun e he => ?_⟩
      rcases List.mem_append.1 he with he | he
      · exact hso.2.2 e he
      · rw [List.mem_singleton.1 he]
        exact hfollows.good)
  refine ⟨hsane, hgrows, fun answer hanswer report hreport => ?_⟩
  obtain ⟨e, he, rfl⟩ := List.mem_map.1 hanswer
  exact hgood e he report hreport

/-- Where a call leaves the node it is made at. -/
theorem step_act_self (P : Protocol ι N M A O) (net : Net ι N M) (i : ι)
    (call : A) : (step P net (.act i call)).2.nodes i =
      (P.act i call (net.nodes i)).1 := by
  unfold step
  simp only
  cases (P.act i call (net.nodes i)).2 with
  | none => exact set_nodes_self _ _
  | some sent => exact set_nodes_self _ _

/-- What a call did where it was made is kept. -/
theorem Keeps.run_call (hkeeps : Keeps P Inv le Genuine allowed Good)
    (h : Sane Inv Genuine net) {actions : List (Action ι A)}
    (hcalls : Calls allowed actions) {i : ι} {call : A}
    (hmem : .act i call ∈ actions) :
    ∃ node, Inv i node ∧ allowed i call ∧ le (P.act i call node).1
      ((Machine.state (Network.step P) net actions).nodes i) := by
  have hallowed := hcalls _ hmem i call rfl
  obtain ⟨pre, post, rfl⟩ := List.append_of_mem hmem
  obtain ⟨hpre, -, -⟩ := hkeeps.run h
    fun a ha => hcalls a (List.mem_append_left _ ha)
  let mid := Machine.state (Network.step P) net pre
  refine ⟨mid.nodes i, hpre.inv i, hallowed, ?_⟩
  have hstep := hkeeps.step hpre (.act i call) fun j other heq => by
    cases heq
    exact hallowed
  obtain ⟨-, hpost, -⟩ := hkeeps.run hstep.sane fun a ha =>
    hcalls a (List.mem_append_right _ (List.mem_cons_of_mem _ ha))
  have hsplit : Machine.state (Network.step P) net
      (pre ++ .act i call :: post) = Machine.state (Network.step P)
        (Network.step P mid (.act i call)).2 post := List.foldl_append
  rw [hsplit, ← step_act_self P mid i call]
  exact hpost i

def Action.puts {E : Type} (put : ι → A → Option E) :
    Action ι A → Option E
  | .act i call => put i call
  | _ => none

/-- Numbers are not used twice: under an old one nothing new is found. -/
structure Ages (net next : Net ι N M) : Prop where
  fresh : net.nextId ≤ next.nextId
  kept : ∀ id, id < net.nextId → ∀ packet, next.inflight[id]? = some packet →
    net.inflight[id]? = some packet

section Ages

omit [DecidableEq ι]

theorem Ages.refl (net : Net ι N M) : Ages net net :=
  ⟨le_rfl, fun _ _ _ h => h⟩

theorem Ages.trans {mid : Net ι N M} (h : Ages net mid)
    (hnext : Ages mid next) : Ages net next :=
  ⟨h.fresh.trans hnext.fresh, fun id hid packet hfound =>
    h.kept id hid packet (hnext.kept id (hid.trans_le h.fresh) packet hfound)⟩

theorem Ages.send (h : Ages net next) (packet : Packet ι M) :
    Ages net (next.send packet) := by
  refine h.trans ⟨Nat.le_succ _, fun id hid found hfound => ?_⟩
  rwa [show (next.send packet).inflight =
    next.inflight.insert next.nextId packet from rfl,
    BTreeMap.getElem?_insert_ite, if_neg (ne_of_gt hid)] at hfound

theorem ages_take (net : Net ι N M) (id : ℕ) : Ages net (net.take id) := by
  refine ⟨le_rfl, fun other _ packet hother => ?_⟩
  rw [show (net.take id).inflight = net.inflight.erase id from rfl,
    BTreeMap.getElem?_erase_ite] at hother
  split at hother
  · cases hother
  · exact hother

theorem getElem?_send (net : Net ι N M) (packet : Packet ι M) :
    (net.send packet).inflight[net.nextId]? = some packet := by
  simp [Net.send]

end Ages

theorem ages_step (action : Action ι A) :
    Ages net (step P net action).2 := by
  cases action with
  | act i call =>
      unfold step
      simp only
      have hset : Ages net (net.set i (P.act i call (net.nodes i)).1) :=
        ⟨le_rfl, fun _ _ _ h => h⟩
      cases (P.act i call (net.nodes i)).2 with
      | none => exact hset
      | some sent => exact hset.send _
  | lose id => exact ages_take net id
  | deliver id =>
      cases hpacket : net.inflight[id]? with
      | none =>
          rw [step_missing hpacket]
          exact Ages.refl net
      | some packet =>
          rw [step_deliver hpacket]
          have hset : Ages net ((net.take id).set packet.target (P.receive
              packet.target packet.source packet.message
              ((net.take id).nodes packet.target)).2.1) :=
            ⟨(ages_take net id).fresh, (ages_take net id).kept⟩
          unfold arrive
          simp only
          cases (P.receive packet.target packet.source packet.message
              ((net.take id).nodes packet.target)).2.2 with
          | none => exact hset
          | some answer => exact hset.send _

/-- The answer to a message, and what it leaves. -/
theorem arrive_answers {answer : M}
    (h : (P.receive packet.target packet.source packet.message
      (net.nodes packet.target)).2.2 = some answer) :
    (arrive P (net.take id) packet).2.inflight[net.nextId]? =
      some ⟨packet.target, packet.source, answer⟩ := by
  have hnext : (arrive P (net.take id) packet).2 =
      Net.send ((net.take id).set packet.target (P.receive packet.target
        packet.source packet.message (net.nodes packet.target)).2.1)
        ⟨packet.target, packet.source, answer⟩ := by
    unfold arrive
    simp only [Net.take] at h ⊢
    rw [h]
    rfl
  rw [hnext]
  exact getElem?_send _ _

theorem arrive_target :
    (arrive P net packet).2.nodes packet.target =
      (P.receive packet.target packet.source packet.message
        (net.nodes packet.target)).2.1 := by
  unfold arrive
  simp only
  cases (P.receive packet.target packet.source packet.message
      (net.nodes packet.target)).2.2 with
  | none => exact set_nodes_self _ _
  | some answer => exact set_nodes_self _ _

/-! ## Endless runs -/

variable {later : ℕ → Action ι A} {run : ℕ → Net ι N M}

/-- A run, without any start in particular. -/
def Runs (P : Protocol ι N M A O) (later : ℕ → Action ι A)
    (run : ℕ → Net ι N M) : Prop :=
  ∀ n, run (n + 1) = (step P (run n) (later n)).2

/-- Whatever is under way arrives some time. -/
def Arrives (later : ℕ → Action ι A) (run : ℕ → Net ι N M) : Prop :=
  ∀ n id, id ∈ (run n).inflight →
    ∃ m, n ≤ m ∧ id ∈ (run m).inflight ∧ later m = .deliver id

theorem ages_run (hrun : Runs P later run) {n m : ℕ} (hnm : n ≤ m) :
    Ages (run n) (run m) := by
  induction m, hnm using Nat.le_induction with
  | base => exact Ages.refl _
  | succ m _ ih =>
      rw [hrun]
      exact ih.trans (ages_step _)

omit [DecidableEq ι] in
theorem Keeps.grows_run (hkeeps : Keeps P Inv le Genuine allowed Good)
    (hgrows : ∀ n, Grows le (run n) (run (n + 1))) {n m : ℕ} (hnm : n ≤ m) :
    Grows le (run n) (run m) := by
  induction m, hnm using Nat.le_induction with
  | base => exact fun i => hkeeps.refl _
  | succ m _ ih => exact fun i => hkeeps.trans (ih i) (hgrows m i)

theorem Keeps.forever (hkeeps : Keeps P Inv le Genuine allowed Good)
    (hrun : Runs P later run) (hstart : Sane Inv Genuine (run 0))
    (hallowed : ∀ n i call, later n = .act i call → allowed i call) :
    (∀ n, Sane Inv Genuine (run n)) ∧ ∀ n, Grows le (run n) (run (n + 1)) := by
  have hsane : ∀ n, Sane Inv Genuine (run n) := by
    intro n
    induction n with
    | zero => exact hstart
    | succ n ih =>
        rw [hrun]
        exact (hkeeps.step ih (later n) (hallowed n)).sane
  refine ⟨hsane, fun n => ?_⟩
  rw [hrun]
  exact (hkeeps.step (hsane n) (later n) (hallowed n)).grows

/-- A message under way arrives as it is. -/
theorem arrives_as_sent (hrun : Runs P later run)
    (hsane : ∀ n, Sane Inv Genuine (run n)) (harrives : Arrives later run)
    {n : ℕ} (h : (run n).inflight[id]? = some packet) :
    ∃ m, n ≤ m ∧ run (m + 1) = (arrive P ((run m).take id) packet).2 ∧
      (run m).inflight[id]? = some packet ∧ later m = .deliver id := by
  have hmem := (BTreeMap.mem_iff_exists _ _).2 ⟨packet, h⟩
  obtain ⟨m, hnm, hid, hdeliver⟩ := harrives n id hmem
  obtain ⟨found, hfound⟩ := (BTreeMap.mem_iff_exists _ _).1 hid
  have hsame := (ages_run hrun hnm).kept id ((hsane n).numbered id hmem)
    found hfound
  rw [h] at hsame
  cases hsame
  refine ⟨m, hnm, ?_, hfound, hdeliver⟩
  rw [hrun, hdeliver, step_deliver hfound]

end Network
