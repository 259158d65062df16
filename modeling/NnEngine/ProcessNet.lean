import Mathlib.Tactic

/-!
# Process networks

Deterministic processes that talk over bounded first-in first-out channels, each with one writing and
one reading end.  A process blocks when it sends to a full channel or receives from an empty one.

Steps of two processes commute (`step_diamond`), so the order in which the processes run does not
matter: two runs from one network can be continued to a common one (`run_join`).  One schedule
therefore tells how every schedule ends (`Run.of_stuck`), and it does end (`exists_length_le`).

A message carries the number of outputs that its sender had made, and a process keeps these numbers
for the messages that it has received.  No process can read them.
-/

namespace NnEngine
namespace ProcessNet

variable {P C M O α β γ : Type}

/-! ### Programs -/

/-- A program that sends and receives messages, makes outputs and returns a value. -/
inductive Prog (C M O α : Type)
  | pure (a : α)
  | emit (o : O) (next : Prog C M O α)
  | send (c : C) (m : M) (next : Prog C M O α)
  | recv (c : C) (next : M → Prog C M O α)

namespace Prog

def bind (x : Prog C M O α) (f : α → Prog C M O β) : Prog C M O β :=
  match x with
  | pure a => f a
  | emit o next => .emit o (next.bind f)
  | send c m next => .send c m (next.bind f)
  | recv c next => .recv c fun m => (next m).bind f

@[simp] theorem pure_bind (a : α) (f : α → Prog C M O β) : (pure a).bind f = f a := rfl

@[simp] theorem emit_bind (o : O) (next : Prog C M O α) (f : α → Prog C M O β) :
    (emit o next).bind f = emit o (next.bind f) := rfl

@[simp] theorem send_bind (c : C) (m : M) (next : Prog C M O α) (f : α → Prog C M O β) :
    (send c m next).bind f = send c m (next.bind f) := rfl

@[simp] theorem recv_bind (c : C) (next : M → Prog C M O α) (f : α → Prog C M O β) :
    (recv c next).bind f = recv c fun m => (next m).bind f := rfl

@[simp] theorem bind_assoc (x : Prog C M O α) (f : α → Prog C M O β) (g : β → Prog C M O γ) :
    (x.bind f).bind g = x.bind fun a => (f a).bind g := by
  induction x with
  | pure a => rfl
  | emit o next ih => exact congrArg (emit o) ih
  | send c m next ih => exact congrArg (send c m) ih
  | recv c next ih => exact congrArg (recv c) (funext ih)

/-- Send messages one after the other. -/
def sendAll (c : C) : List M → Prog C M O Unit
  | [] => pure ()
  | m :: ms => send c m (sendAll c ms)

/-- Receive `n` messages. -/
def recvExact (c : C) : Nat → Prog C M O (List M)
  | 0 => pure []
  | n + 1 => recv c fun m => (recvExact c n).bind fun ms => pure (m :: ms)

section Alone

variable [DecidableEq C]

/-- The value of a program that runs by itself on the messages that its channels hold, and what is left of them. -/
def alone : Prog C M O α → (C → List M) → Option (α × (C → List M))
  | pure a, q => some (a, q)
  | emit _ next, q => next.alone q
  | send _ _ next, q => next.alone q
  | recv c next, q =>
      match q c with
      | [] => none
      | m :: ms => (next m).alone (Function.update q c ms)

theorem alone_recv (c : C) (next : M → Prog C M O α) (q : C → List M) : (recv c next).alone q =
    match q c with
    | [] => none
    | m :: ms => (next m).alone (Function.update q c ms) := by
  rw [alone]

theorem alone_bind (x : Prog C M O α) (f : α → Prog C M O β) (q : C → List M) :
    (x.bind f).alone q = (x.alone q).bind fun r => (f r.1).alone r.2 := by
  induction x generalizing q with
  | pure a => rfl
  | emit o next ih => exact ih q
  | send c m next ih => exact ih q
  | recv c next ih =>
      rw [recv_bind, alone_recv, alone_recv]
      cases q c with
      | nil => rfl
      | cons m ms => exact ih m _

theorem alone_sendAll (c : C) (ms : List M) (q : C → List M) :
    (sendAll c ms : Prog C M O Unit).alone q = some ((), q) := by
  induction ms with
  | nil => rfl
  | cons m ms ih => exact ih

theorem alone_recvExact (c : C) (n : Nat) (q : C → List M) : (recvExact c n : Prog C M O (List M)).alone q =
    if n ≤ (q c).length then some ((q c).take n, Function.update q c ((q c).drop n)) else none := by
  induction n generalizing q with
  | zero =>
      rw [if_pos (Nat.zero_le _), List.drop_zero, Function.update_eq_self]
      rfl
  | succ n ih =>
      show alone (.recv c fun m => (recvExact c n).bind fun ms => pure (m :: ms)) q = _
      unfold alone
      cases hq : q c with
      | nil => rfl
      | cons m ms =>
          dsimp only
          rw [alone_bind, ih, Function.update_self, Function.update_idem]
          simp only [List.length_cons, Nat.add_le_add_iff_right]
          split <;> rfl

end Alone

end Prog

/-! ### Networks -/

/-- A process with the outputs it has made.  `seen` lists for each message that it has received how
many outputs its sender had made then, and how many it had made itself. -/
structure Process (C M O α : Type) where
  prog : Prog C M O α
  outs : List O
  seen : List (Nat × Nat)

/-- The process `p` has come to a program, and every message that it has received was sent by a
process with as many outputs as it had itself. -/
structure At (f : P → Process C M O α) (p : P) (prog : Prog C M O α) (outs : List O) : Prop where
  prog : (f p).prog = prog
  outs : (f p).outs = outs
  seen : ∀ x ∈ (f p).seen, x.1 = x.2

theorem At.of_eq {f f' : P → Process C M O α} {p : P} {prog : Prog C M O α} {outs : List O}
    (h : At f p prog outs) (heq : f' p = f p) : At f' p prog outs := by
  constructor
  · rw [heq]
    exact h.prog
  · rw [heq]
    exact h.outs
  · rw [heq]
    exact h.seen

/-- The messages in a channel, oldest first, each with the number of outputs its sender had made. -/
abbrev Queues (C M : Type) := C → List (Nat × M)

structure Net (P C M O α : Type) where
  process : P → Process C M O α
  queue : Queues C M

/-- Who writes and reads a channel, and how many messages it holds. -/
structure Wiring (P C : Type) where
  writer : C → P
  reader : C → P
  capacity : Nat

variable [DecidableEq C] {w : Wiring P C} {p q : P}

/-- What the process `p` can do to itself and to the channels. -/
inductive Act (w : Wiring P C) (p : P) :
    Process C M O α → Queues C M → Process C M O α → Queues C M → Prop
  | emit (o : O) (next : Prog C M O α) (outs : List O) (seen : List (Nat × Nat))
      (queue : Queues C M) :
      Act w p { prog := .emit o next, outs, seen } queue
        { prog := next, outs := outs ++ [o], seen } queue
  | send (ch : C) (m : M) (next : Prog C M O α) (outs : List O) (seen : List (Nat × Nat))
      (queue : Queues C M) (hwriter : w.writer ch = p)
      (hroom : (queue ch).length < w.capacity) :
      Act w p { prog := .send ch m next, outs, seen } queue { prog := next, outs, seen }
        (Function.update queue ch (queue ch ++ [(outs.length, m)]))
  | recv (ch : C) (next : M → Prog C M O α) (outs : List O) (seen : List (Nat × Nat))
      (queue : Queues C M) (stamp : Nat) (m : M) (rest : List (Nat × M))
      (hreader : w.reader ch = p) (hqueue : queue ch = (stamp, m) :: rest) :
      Act w p { prog := .recv ch next, outs, seen } queue
        { prog := next m, outs, seen := seen ++ [(stamp, outs.length)] }
        (Function.update queue ch rest)

/-- A step of the process `p`. -/
inductive Step [DecidableEq P] (w : Wiring P C) (p : P) (n : Net P C M O α) : Net P C M O α → Prop
  | act (x : Process C M O α) (queue : Queues C M) (h : Act w p (n.process p) n.queue x queue) :
      Step w p n { process := Function.update n.process p x, queue }

/-- No process can move. -/
def Stuck [DecidableEq P] (w : Wiring P C) (n : Net P C M O α) : Prop := ∀ p n', ¬Step w p n n'

/-- A run of so many steps, of any processes in any order. -/
inductive Run [DecidableEq P] (w : Wiring P C) : Nat → Net P C M O α → Net P C M O α → Prop
  | refl (n : Net P C M O α) : Run w 0 n n
  | step (k : Nat) (p : P) (n₁ n₂ n₃ : Net P C M O α) (h : Step w p n₁ n₂)
      (hrun : Run w k n₂ n₃) : Run w (k + 1) n₁ n₃

/-! ### Commuting steps -/

/-- What a process does is determined by what it is and by the channels. -/
theorem act_deterministic {x x₁ x₂ : Process C M O α} {u u₁ u₂ : Queues C M}
    (h₁ : Act w p x u x₁ u₁) (h₂ : Act w p x u x₂ u₂) : x₁ = x₂ ∧ u₁ = u₂ := by
  cases h₁ with
  | emit o next outs seen =>
      cases h₂
      exact ⟨rfl, rfl⟩
  | send ch m next outs seen =>
      cases h₂
      exact ⟨rfl, rfl⟩
  | recv ch next outs seen queue stamp m rest _ hqueue =>
      cases h₂ with
      | recv _ _ _ _ _ stamp' m' rest' _ hqueue' =>
          rw [hqueue] at hqueue'
          cases hqueue'
          exact ⟨rfl, rfl⟩

/-- A message that is sent behind another one does not get in its way. -/
theorem act_comm_send_recv {x x' y y' : Process C M O α} {u u₁ u₂ : Queues C M} (ch : C) (m : M)
    (next : Prog C M O α) (hprog : x.prog = .send ch m next)
    (hx : Act w p x u x' u₁) (ch' : C) (next' : M → Prog C M O α)
    (hprog' : y.prog = .recv ch' next') (hy : Act w q y u y' u₂) :
    ∃ v, Act w q y u₁ y' v ∧ Act w p x u₂ x' v := by
  cases hx with
  | emit => cases hprog
  | recv => cases hprog
  | send ch m next outs seen _ hwriter hroom =>
      cases hy with
      | emit => cases hprog'
      | send => cases hprog'
      | recv ch' next' outs' seen' _ stamp m' rest hreader hqueue =>
          by_cases heq : ch = ch'
          · subst heq
            refine ⟨_, .recv ch next' outs' seen' _ stamp m' (rest ++ [(outs.length, m)])
              hreader ?_, ?_⟩
            · rw [Function.update_self, hqueue, List.cons_append]
            · have hsend := Act.send ch m next outs seen (Function.update u ch rest) hwriter (by
                rw [Function.update_self]
                rw [hqueue, List.length_cons] at hroom
                omega)
              rw [Function.update_self, Function.update_idem] at hsend
              rw [Function.update_idem]
              exact hsend
          · refine ⟨_, .recv ch' next' outs' seen' _ stamp m' rest hreader ?_, ?_⟩
            · rw [Function.update_of_ne (Ne.symm heq), hqueue]
            · rw [Function.update_comm heq, ← Function.update_of_ne heq rest u]
              refine .send ch m next outs seen _ hwriter ?_
              rw [Function.update_of_ne heq]
              exact hroom

/-- The actions of two processes commute: they are at different ends of the channels. -/
theorem act_comm (hpq : p ≠ q) {x x' y y' : Process C M O α} {u u₁ u₂ : Queues C M}
    (hx : Act w p x u x' u₁) (hy : Act w q y u y' u₂) :
    ∃ v, Act w q y u₁ y' v ∧ Act w p x u₂ x' v := by
  cases hx with
  | emit => exact ⟨u₂, hy, .emit ..⟩
  | send ch m next outs seen _ hwriter hroom =>
      cases hy with
      | emit => exact ⟨_, .emit .., .send _ _ _ _ _ _ hwriter hroom⟩
      | send ch' m' next' outs' seen' _ hwriter' hroom' =>
          have hne : ch ≠ ch' := by
            rintro rfl
            exact hpq (hwriter.symm.trans hwriter')
          refine ⟨_, .send ch' m' next' outs' seen' _ hwriter' ?_, ?_⟩
          · rw [Function.update_of_ne hne.symm]
            exact hroom'
          · rw [Function.update_of_ne hne.symm, Function.update_comm hne,
              ← Function.update_of_ne hne (u ch' ++ [(outs'.length, m')]) u]
            refine .send ch m next outs seen _ hwriter ?_
            rw [Function.update_of_ne hne]
            exact hroom
      | recv ch' next' outs' seen' _ stamp m' rest hreader hqueue =>
          exact act_comm_send_recv ch m next rfl (.send _ _ _ _ _ _ hwriter hroom) ch' next' rfl
            (.recv _ _ _ _ _ _ _ _ hreader hqueue)
  | recv ch next outs seen _ stamp m rest hreader hqueue =>
      cases hy with
      | emit => exact ⟨_, .emit .., .recv _ _ _ _ _ _ _ _ hreader hqueue⟩
      | send ch' m' next' outs' seen' _ hwriter' hroom' =>
          obtain ⟨v, hx, hy⟩ := act_comm_send_recv ch' m' next' rfl
            (.send _ _ _ _ _ _ hwriter' hroom') ch next rfl
            (.recv ch next outs seen u stamp m rest hreader hqueue)
          exact ⟨v, hy, hx⟩
      | recv ch' next' outs' seen' _ stamp' m' rest' hreader' hqueue' =>
          have hne : ch ≠ ch' := by
            rintro rfl
            exact hpq (hreader.symm.trans hreader')
          refine ⟨_, .recv ch' next' outs' seen' _ stamp' m' rest' hreader' ?_, ?_⟩
          · rw [Function.update_of_ne hne.symm, hqueue']
          · rw [Function.update_comm hne]
            refine .recv ch next outs seen _ stamp m rest hreader ?_
            rw [Function.update_of_ne hne, hqueue]

theorem Act.outs {x y : Process C M O α} {u v : Queues C M} (h : Act w p x u y v) :
    x.outs <+: y.outs := by
  cases h with
  | emit => exact List.prefix_append _ _
  | send => exact List.prefix_rfl
  | recv => exact List.prefix_rfl

theorem Act.seen {x y : Process C M O α} {u v : Queues C M} (h : Act w p x u y v) :
    x.seen <+: y.seen := by
  cases h with
  | emit => exact List.prefix_rfl
  | send => exact List.prefix_rfl
  | recv => exact List.prefix_append _ _

variable [DecidableEq P] {n n₁ n₂ n₃ : Net P C M O α}

theorem step_deterministic (h₁ : Step w p n n₁) (h₂ : Step w p n n₂) : n₁ = n₂ := by
  cases h₁ with
  | act x u hx =>
      cases h₂ with
      | act y v hy =>
          obtain ⟨rfl, rfl⟩ := act_deterministic hx hy
          rfl

/-- The steps of two processes can be taken in either order. -/
theorem step_diamond (hpq : p ≠ q) (h₁ : Step w p n n₁) (h₂ : Step w q n n₂) :
    ∃ n', Step w q n₁ n' ∧ Step w p n₂ n' := by
  cases h₁ with
  | act x u hx =>
      cases h₂ with
      | act y v hy =>
          obtain ⟨t, hy', hx'⟩ := act_comm hpq hx hy
          have hq : Step w q { process := Function.update n.process p x, queue := u }
              { process := Function.update (Function.update n.process p x) q y, queue := t } := by
            refine .act y t ?_
            show Act w q (Function.update n.process p x q) u y t
            rw [Function.update_of_ne hpq.symm]
            exact hy'
          have hp : Step w p { process := Function.update n.process q y, queue := v }
              { process := Function.update (Function.update n.process q y) p x, queue := t } := by
            refine .act x t ?_
            show Act w p (Function.update n.process q y p) v x t
            rw [Function.update_of_ne hpq]
            exact hx'
          rw [Function.update_comm hpq] at hq
          exact ⟨_, hq, hp⟩

/-! ### Runs -/

theorem Run.trans {j k : Nat} (h₁ : Run w j n₁ n₂) (h₂ : Run w k n₂ n₃) : Run w (j + k) n₁ n₃ := by
  induction h₁ with
  | refl n => rwa [Nat.zero_add]
  | step j p m₁ m₂ m₃ hstep _ ih =>
      rw [Nat.add_right_comm]
      exact .step _ p _ _ _ hstep (ih h₂)

theorem Step.run (h : Step w p n₁ n₂) : Run w 1 n₁ n₂ := .step 0 p _ _ _ h (.refl _)

/-- A run only adds to what a process has put out and seen. -/
theorem Run.grows {k : Nat} (h : Run w k n₁ n₂) (q : P) :
    (n₁.process q).outs <+: (n₂.process q).outs ∧
      (n₁.process q).seen <+: (n₂.process q).seen := by
  induction h with
  | refl n => exact ⟨List.prefix_rfl, List.prefix_rfl⟩
  | step k p n₁ n₂ n₃ hstep _ ih =>
      cases hstep with
      | act x u hx =>
          dsimp only at ih
          by_cases hqp : q = p
          · subst hqp
            rw [Function.update_self] at ih
            exact ⟨hx.outs.trans ih.1, hx.seen.trans ih.2⟩
          · rw [Function.update_of_ne hqp] at ih
            exact ih

/-- A process that has returned does not change any more. -/
theorem Run.returned {k : Nat} (h : Run w k n₁ n₂) {r : α} (hdone : (n₁.process q).prog = .pure r) :
    n₂.process q = n₁.process q := by
  induction h with
  | refl n => rfl
  | step k p n₁ n₂ n₃ hstep _ ih =>
      cases hstep with
      | act x u hx =>
          have hqp : q ≠ p := by
            rintro rfl
            generalize n₁.process q = y at hx hdone
            cases hx <;> cases hdone
          dsimp only at ih
          rw [Function.update_of_ne hqp] at ih
          exact ih hdone

/-- One step joins a run. -/
theorem step_join {k : Nat} (h₁ : Step w p n n₁) (h₂ : Run w k n n₂) :
    ∃ n' i j, Run w i n₁ n' ∧ Run w j n₂ n' := by
  induction h₂ generalizing p n₁ with
  | refl n => exact ⟨n₁, 0, 1, .refl _, h₁.run⟩
  | step k q n m n₂ hstep hrun ih =>
      by_cases hpq : p = q
      · subst hpq
        obtain rfl := step_deterministic h₁ hstep
        exact ⟨n₂, k, 0, hrun, .refl _⟩
      · obtain ⟨m', hq, hp⟩ := step_diamond hpq h₁ hstep
        obtain ⟨n', i, j, hi, hj⟩ := ih hp
        exact ⟨n', i + 1, j, .step _ q _ _ _ hq hi, hj⟩

/-- Two runs from one network can be continued to a common one. -/
theorem run_join {j k : Nat} (h₁ : Run w j n n₁) (h₂ : Run w k n n₂) :
    ∃ n' i l, Run w i n₁ n' ∧ Run w l n₂ n' := by
  induction h₁ generalizing k n₂ with
  | refl n => exact ⟨n₂, k, 0, h₂, .refl _⟩
  | step j p n m n₁ hstep _ ih =>
      obtain ⟨n', i, l, hi, hl⟩ := step_join hstep h₂
      obtain ⟨n'', i', l', hi', hl'⟩ := ih hi
      exact ⟨n'', i', l + l', hi', hl.trans hl'⟩

theorem stuck_of_returned (h : ∀ p, ∃ r, (n.process p).prog = .pure r) : Stuck w n := by
  intro p n' hstep
  obtain ⟨r, hr⟩ := h p
  cases hstep with
  | act x u hx =>
      generalize n.process p = y at hx hr
      cases hx <;> cases hr

theorem Stuck.run_eq {k : Nat} (hstuck : Stuck w n) (h : Run w k n n₁) : n = n₁ := by
  cases h with
  | refl => rfl
  | step k p _ m _ hstep _ => exact absurd hstep (hstuck p m)

/-- Where one run ends is where every run can be continued to. -/
theorem Run.of_stuck {j k : Nat} (h : Run w k n n₂) (hstuck : Stuck w n₂) (h₁ : Run w j n n₁) :
    ∃ i, Run w i n₁ n₂ := by
  obtain ⟨n', i, l, hi, hl⟩ := run_join h₁ h
  obtain rfl := hstuck.run_eq hl
  exact ⟨i, hi⟩

/-! ### Runs end -/

/-- A program of at most `k` steps. -/
inductive Prog.Within : Prog C M O α → Nat → Prop
  | pure (a : α) (k : Nat) : Within (.pure a) k
  | emit (o : O) (next : Prog C M O α) (k : Nat) (h : Within next k) : Within (.emit o next) (k + 1)
  | send (c : C) (m : M) (next : Prog C M O α) (k : Nat) (h : Within next k) :
      Within (.send c m next) (k + 1)
  | recv (c : C) (next : M → Prog C M O α) (k : Nat) (h : ∀ m, Within (next m) k) :
      Within (.recv c next) (k + 1)

omit [DecidableEq C] [DecidableEq P] in
theorem Prog.Within.mono {x : Prog C M O α} {k l : Nat} (h : x.Within k) (hkl : k ≤ l) :
    x.Within l := by
  induction h generalizing l with
  | pure a k => exact .pure a l
  | emit o next k _ ih =>
      obtain ⟨l, rfl⟩ := Nat.exists_eq_add_of_lt hkl
      exact .emit o next _ (ih (by omega))
  | send c m next k _ ih =>
      obtain ⟨l, rfl⟩ := Nat.exists_eq_add_of_lt hkl
      exact .send c m next _ (ih (by omega))
  | recv c next k _ ih =>
      obtain ⟨l, rfl⟩ := Nat.exists_eq_add_of_lt hkl
      exact .recv c next _ fun m => ih m (by omega)

omit [DecidableEq C] [DecidableEq P] in
theorem Prog.exists_within [Finite M] (x : Prog C M O α) : ∃ k, x.Within k := by
  induction x with
  | pure a => exact ⟨0, .pure a 0⟩
  | emit o next ih =>
      obtain ⟨k, hk⟩ := ih
      exact ⟨k + 1, .emit o next k hk⟩
  | send c m next ih =>
      obtain ⟨k, hk⟩ := ih
      exact ⟨k + 1, .send c m next k hk⟩
  | recv c next ih =>
      choose k hk using ih
      obtain ⟨b, hb⟩ := (Set.finite_range k).bddAbove
      exact ⟨b + 1, .recv c next b fun m => (hk m).mono (hb (Set.mem_range_self m))⟩

omit [DecidableEq P] in
theorem Act.within {x y : Process C M O α} {u v : Queues C M} {k : Nat} (h : Act w p x u y v)
    (hk : x.prog.Within k) : ∃ l, k = l + 1 ∧ y.prog.Within l := by
  cases h with
  | emit =>
      cases hk with
      | emit _ _ l h => exact ⟨l, rfl, h⟩
  | send =>
      cases hk with
      | send _ _ _ l h => exact ⟨l, rfl, h⟩
  | recv ch next outs seen _ stamp m =>
      cases hk with
      | recv _ _ l h => exact ⟨l, rfl, h m⟩

/-- The lengths of its programs bound every run of a network. -/
theorem Run.length_le {j : Nat} {ps : Finset P} (bound : P → Nat) (h : Run w j n n₁)
    (hbound : ∀ p, ((n.process p).prog).Within (bound p)) (hps : ∀ p, p ∉ ps → bound p = 0) :
    j ≤ ∑ p ∈ ps, bound p := by
  induction h generalizing bound with
  | refl => exact Nat.zero_le _
  | step j p n m n₁ hstep _ ih =>
      cases hstep with
      | act x u hx =>
          obtain ⟨l, hl, hxl⟩ := hx.within (hbound p)
          have hp : p ∈ ps := by
            by_contra hp
            rw [hps p hp] at hl
            omega
          have hrest := ih (Function.update bound p l) (by
            intro q
            dsimp only
            by_cases hqp : q = p
            · subst hqp
              rw [Function.update_self, Function.update_self]
              exact hxl
            · rw [Function.update_of_ne hqp, Function.update_of_ne hqp]
              exact hbound q) (by
            intro q hq
            have hqp : q ≠ p := by
              rintro rfl
              exact hq hp
            rw [Function.update_of_ne hqp]
            exact hps q hq)
          rw [Finset.sum_update_of_mem hp] at hrest
          have hsum := Finset.add_sum_erase ps bound hp
          rw [Finset.sdiff_singleton_eq_erase] at hrest
          omega

/-- If finitely many processes have not returned, the network cannot run forever. -/
theorem exists_length_le [Finite M] (ps : Finset P)
    (hps : ∀ p, p ∉ ps → ∃ r, (n.process p).prog = .pure r) :
    ∃ k, ∀ j n₁, Run w j n n₁ → j ≤ k := by
  choose bound hbound using fun p => Prog.exists_within (n.process p).prog
  refine ⟨∑ p ∈ ps, bound p, fun j n₁ h => ?_⟩
  have hle := h.length_le (fun p => if p ∈ ps then bound p else 0) (by
    intro p
    split
    · exact hbound p
    · rename_i hp
      obtain ⟨r, hr⟩ := hps p hp
      rw [hr]
      exact .pure r 0) (fun p hp => if_neg hp)
  rw [Finset.sum_congr rfl fun p hp => if_pos hp] at hle
  exact hle

/-! ### Schedules -/

/-- The network with no message under way. -/
def idle (f : P → Process C M O α) : Net P C M O α := { process := f, queue := fun _ => [] }

/-- Some schedule leads from the processes `f` to the processes `f'`. -/
def Leads (w : Wiring P C) (f f' : P → Process C M O α) : Prop := ∃ k, Run w k (idle f) (idle f')

variable {f f' f'' : P → Process C M O α} {prog : Prog C M O α} {outs outs' : List O}

theorem Leads.refl (f : P → Process C M O α) : Leads w f f := ⟨0, .refl _⟩

theorem Leads.trans (h₁ : Leads w f f') (h₂ : Leads w f' f'') : Leads w f f'' := by
  obtain ⟨j, hj⟩ := h₁
  obtain ⟨k, hk⟩ := h₂
  exact ⟨j + k, hj.trans hk⟩

/-- A process makes its output. -/
theorem leads_emit {o : O} {next : Prog C M O α} (h : At f p (.emit o next) outs) :
    ∃ f', Leads w f f' ∧ At f' p next (outs ++ [o]) ∧ ∀ r, r ≠ p → f' r = f r := by
  have hact : Act w p (f p) (fun _ => [])
      { prog := next, outs := outs ++ [o], seen := (f p).seen } (fun _ => []) := by
    have hp := Act.emit (w := w) (p := p) o next outs (f p).seen (fun _ => [])
    rw [← h.prog, ← h.outs] at hp
    rw [← h.outs]
    exact hp
  refine ⟨Function.update f p { prog := next, outs := outs ++ [o], seen := (f p).seen },
    ⟨1, (Step.act _ _ hact).run⟩, ?_, fun r hr => Function.update_of_ne hr _ _⟩
  constructor
  · rw [Function.update_self]
  · rw [Function.update_self]
  · rw [Function.update_self]
    exact h.seen

/-- A message goes from its sender to its receiver. -/
theorem leads_message (hcap : 0 < w.capacity) {ch : C} (hpq : w.writer ch ≠ w.reader ch) {m : M}
    {next : Prog C M O α} {next' : M → Prog C M O α} (hlen : outs.length = outs'.length)
    (hp : At f (w.writer ch) (.send ch m next) outs)
    (hq : At f (w.reader ch) (.recv ch next') outs') :
    ∃ f', Leads w f f' ∧ At f' (w.writer ch) next outs ∧ At f' (w.reader ch) (next' m) outs' ∧
      ∀ r, r ≠ w.writer ch → r ≠ w.reader ch → f' r = f r := by
  generalize hwriter : w.writer ch = p at *
  generalize hreader : w.reader ch = q at *
  have hsend : Act w p (f p) (fun _ => []) { prog := next, outs, seen := (f p).seen }
      (Function.update (fun _ => []) ch [(outs.length, m)]) := by
    have hact := Act.send ch m next outs (f p).seen (fun _ => []) hwriter hcap
    rw [← hp.prog, ← hp.outs] at hact
    rw [← hp.outs]
    exact hact
  have hrecv : Act w q (f q) (Function.update (fun _ => []) ch [(outs.length, m)])
      { prog := next' m, outs := outs', seen := (f q).seen ++ [(outs.length, outs'.length)] }
      (fun _ => []) := by
    have hact := Act.recv ch next' outs' (f q).seen
      (Function.update (fun _ => []) ch [(outs.length, m)]) outs.length m [] hreader
      (Function.update_self ..)
    rw [← hq.prog, ← hq.outs, Function.update_idem] at hact
    rw [← hq.outs]
    have hempty : Function.update (fun _ => []) ch ([] : List (Nat × M)) = fun _ => [] :=
      Function.update_eq_self ch (fun _ => [])
    rw [hempty] at hact
    exact hact
  have hthen : Step w q
      { process := Function.update f p { prog := next, outs, seen := (f p).seen }
        queue := Function.update (fun _ => []) ch [(outs.length, m)] } (idle _) :=
    .act _ _ (by
      show Act w q (Function.update f p _ q) _ _ _
      rw [Function.update_of_ne hpq.symm]
      exact hrecv)
  refine ⟨_, ⟨2, .step 1 p _ _ _ (.act _ _ hsend) hthen.run⟩, ?_, ?_, fun r hrp hrq => ?_⟩
  · refine At.of_eq (f := Function.update f p { prog := next, outs, seen := (f p).seen }) ?_
      (Function.update_of_ne hpq _ _)
    constructor
    · rw [Function.update_self]
    · rw [Function.update_self]
    · rw [Function.update_self]
      exact hp.seen
  · constructor
    · rw [Function.update_self]
    · rw [Function.update_self]
    · rw [Function.update_self]
      intro x hx
      rcases List.mem_append.mp hx with hx | hx
      · exact hq.seen x hx
      · rw [List.mem_singleton.mp hx]
        exact hlen
  · dsimp only
    rw [Function.update_of_ne hrq, Function.update_of_ne hrp]

/-- A list of messages goes from its sender to its receiver. -/
theorem leads_messages (hcap : 0 < w.capacity) {ch : C} (hpq : w.writer ch ≠ w.reader ch)
    {next : Prog C M O α} (hlen : outs.length = outs'.length) :
    ∀ (ms : List M) (f : P → Process C M O α) (next' : List M → Prog C M O α),
    At f (w.writer ch) ((Prog.sendAll ch ms).bind fun _ => next) outs →
    At f (w.reader ch) ((Prog.recvExact ch ms.length).bind next') outs' →
    ∃ f', Leads w f f' ∧ At f' (w.writer ch) next outs ∧ At f' (w.reader ch) (next' ms) outs' ∧
      ∀ r, r ≠ w.writer ch → r ≠ w.reader ch → f' r = f r := by
  intro ms
  induction ms with
  | nil =>
      intro f next' hp hq
      exact ⟨f, .refl f, hp, hq, fun _ _ _ => rfl⟩
  | cons m ms ih =>
      intro f next' hp hq
      have hq' : At f (w.reader ch)
          (.recv ch fun m => (Prog.recvExact ch ms.length).bind fun ms => next' (m :: ms)) outs' := by
        simpa [Prog.recvExact] using hq
      obtain ⟨f₁, hf₁, hp₁, hq₁, hframe₁⟩ := leads_message hcap hpq hlen hp hq'
      obtain ⟨f₂, hf₂, hp₂, hq₂, hframe₂⟩ := ih f₁ (fun ms => next' (m :: ms)) hp₁ hq₁
      exact ⟨f₂, hf₁.trans hf₂, hp₂, hq₂,
        fun r hrp hrq => (hframe₂ r hrp hrq).trans (hframe₁ r hrp hrq)⟩

end ProcessNet
end NnEngine
