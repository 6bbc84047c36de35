import PiggyOS.Fs.Registry
import PiggyOS.Infra.Exclusive
import PiggyOS.Infra.Run
import PiggyOS.Infra.Sections

/-!
# Writing to the serial device (`com.c`, `spinlock.c`)

Any number of tasks write buffers to `com0`, one access to the lock, to memory or to the port at a
time, while the log sends characters over the same line without the lock and memory changes.
`write_com` holds `com_lock` for the whole of its buffer, so that the buffers come out one after
another.
-/

namespace PiggyOS

open Infra

/-- What a task does next. `out` is outside of `write_com`, with what its last call has returned;
`loop` is at the test of the loop, and `putc` in `serial_putc`, with the character that has been
read. -/
inductive ComPc
  | out (ret : U32)
  | lock (size buf : U32)
  | loop (size : U32) (i : Nat) (buf : U32)
  | putc (size : U32) (i : Nat) (buf : U32) (c : BitVec 8)
  | unlock (size : U32)

namespace ComPc

/-- The task is between its `spin_lock` and its `spin_unlock`. -/
def holds : ComPc → Bool
  | loop .. | putc .. | unlock _ => true
  | _ => false

/-- How much of its buffer the task has sent. -/
def sent : ComPc → Nat
  | loop _ i _ | putc _ i _ _ => i
  | unlock size => size.toNat
  | _ => 0

/-- The task has yet to read the byte at `a`. -/
def Reads (a : U32) : ComPc → Prop
  | lock size buf => (a - buf).toNat < size.toNat
  | loop size i buf => (a - buf).toNat < size.toNat - i
  | putc size i buf _ => (a - buf).toNat < size.toNat - (i + 1)
  | _ => False

end ComPc

/-- The tasks, the lock and the line: the bytes on it, with the task whose call has sent them.
`asked` is the buffer that the last call of a task has been given, and `served` collects the calls
that have given the lock back. -/
structure ComTasks (ι : Type) where
  mem : Mem
  lock : U32
  pc : ι → ComPc
  line : List (Option ι × BitVec 8)
  asked : ι → List (BitVec 8)
  served : List (ι × List (BitVec 8))

namespace ComTasks

variable {ι : Type} [DecidableEq ι] (s : ComTasks ι) (i : ι)

def goto (p : ComPc) : ComTasks ι := { s with pc := Function.update s.pc i p }

/-- `outb(PORT_COM1, c)` -/
def send (i : Option ι) (c : BitVec 8) : ComTasks ι := { s with line := s.line ++ [(i, c)] }

/-- The task `i` calls `write_com`. -/
def write (size buf : U32) : Option (ComTasks ι) :=
  match s.pc i with
  | .out _ =>
    some { s.goto i (.lock size buf) with
      asked := Function.update s.asked i (s.mem.slice buf size.toNat) }
  | _ => none

/-- The next step of the task `i`; `lsr` is what it reads from the line status register if it waits
for the port. -/
def step (lsr : BitVec 8) : Option (ComTasks ι) :=
  match s.pc i with
  | .out _ => none
  | .lock size buf =>
    (spinLock s.lock).map fun lock => { s.goto i (.loop size 0 buf) with lock := lock }
  | .loop size k buf =>
    if k < size.toNat then some (s.goto i (.putc size k (buf + 1) (s.mem buf)))
    else some (s.goto i (.unlock size))
  | .putc size k buf c =>
    if lsr &&& 0x20 = 0 then some s
    else some ((s.send (some i) c).goto i (.loop size (k + 1) buf))
  | .unlock size =>
    some { s.goto i (.out size) with
      lock := spinUnlock
      served := s.served ++ [(i, s.asked i)] }

/-- What `write_com` has sent, in the order in which it has been sent. -/
def sent : List (ι × BitVec 8) := s.line.filterMap fun b => b.1.map fun i => (i, b.2)

/-- The lock is free, no task is in `write_com`, and nothing has been sent. -/
structure Start (s : ComTasks ι) : Prop where
  unlocked : s.lock = 0
  out : ∀ i, ∃ ret, s.pc i = .out ret
  line : s.line = []
  served : s.served = []

end ComTasks

/-- A call of `write_com`, a step of a task, a character of the log, or a store to memory. -/
inductive ComOp (ι : Type)
  | write (i : ι) (size buf : U32)
  | step (i : ι) (lsr : BitVec 8)
  | log (c : BitVec 8)
  | store (a : U32) (v : BitVec 8)

variable {ι : Type} [DecidableEq ι]

def ComOp.exec (s : ComTasks ι) : ComOp ι → Option (ComTasks ι)
  | write i size buf => s.write i size buf
  | step i lsr => s.step i lsr
  | log c => some (s.send none c)
  | store a v => some { s with mem := Function.update s.mem a v }

/-- No byte is changed that a call has yet to send. -/
def ComOp.Safe (s : ComTasks ι) : ComOp ι → Prop
  | store a _ => ∀ i, ¬ (s.pc i).Reads a
  | _ => True

def ComStep (s : ComTasks ι) (op : ComOp ι) (t : ComTasks ι) : Prop := op.exec s = some t

namespace ComTasks

/-- What the call of a task still has to do: `bs` is its buffer. -/
def Pending (m : Mem) (bs : List (BitVec 8)) : ComPc → Prop
  | .out _ => True
  | .lock size buf => bs.length = size.toNat ∧ m.Holds buf bs
  | .loop size k buf => bs.length = size.toNat ∧ k ≤ bs.length ∧ m.Holds buf (bs.drop k)
  | .putc size k buf c =>
    bs.length = size.toNat ∧ bs[k]? = some c ∧ m.Holds buf (bs.drop (k + 1))
  | .unlock size => bs.length = size.toNat

/-- The lock belongs to the task that is between its `spin_lock` and its `spin_unlock`, the calls
have their buffers before them, and what has been sent is the buffers of the calls that have ended
and a part of the one that has the lock. -/
structure Inv (s : ComTasks ι) : Prop where
  owned : Exclusive (fun i (_ : Unit) => (s.pc i).holds = true) fun _ => s.lock ≠ 0
  pending : ∀ i, Pending s.mem (s.asked i) (s.pc i)
  sent : Sectioned (fun i => (s.pc i).holds = true)
    (fun i => (s.asked i).take (s.pc i).sent) s.sent s.served

variable {s t : ComTasks ι} {op : ComOp ι} {i j : ι} {p : ComPc} {size buf a : U32} {k : Nat}
  {lsr c v : BitVec 8} {m : Mem} {bs : List (BitVec 8)}

section

omit [DecidableEq ι]

theorem Start.not_holds (h : s.Start) (i : ι) : ¬ (s.pc i).holds = true := by
  obtain ⟨ret, hret⟩ := h.out i
  rw [hret]
  exact Bool.false_ne_true

theorem Start.inv (h : s.Start) : s.Inv where
  owned := ⟨fun i _ hi => absurd hi (h.not_holds i), fun i _ _ hi => absurd hi (h.not_holds i)⟩
  pending := fun i => by
    obtain ⟨ret, hret⟩ := h.out i
    rw [hret]
    trivial
  sent := by
    refine ⟨fun _ => ?_, fun i hi => absurd hi (h.not_holds i)⟩
    rw [ComTasks.sent, h.line, h.served]
    rfl

/-- A store that no call has yet to see. -/
theorem Pending.store (h : Pending m bs p) (ha : ¬ p.Reads a) :
    Pending (Function.update m a v) bs p := by
  cases p with
  | out ret => trivial
  | lock size buf =>
    obtain ⟨hlen, hbuf⟩ := h
    have := size.isLt
    exact ⟨hlen, hbuf.update (by rwa [hlen])⟩
  | loop size k buf =>
    obtain ⟨hlen, hk, hbuf⟩ := h
    have := size.isLt
    exact ⟨hlen, hk, hbuf.update (by rwa [List.length_drop, hlen])⟩
  | putc size k buf c =>
    obtain ⟨hlen, hc, hbuf⟩ := h
    have := size.isLt
    exact ⟨hlen, hc, hbuf.update (by rwa [List.length_drop, hlen])⟩
  | unlock size => exact h

theorem Inv.only (h : s.Inv) (hi : (s.pc i).holds = true) (j : ι) (hj : (s.pc j).holds = true) :
    j = i := h.owned.owner j i () hj hi

theorem Inv.nobody (h : s.Inv) (hlock : s.lock = 0) (i : ι) : ¬ (s.pc i).holds = true :=
  fun hi => h.owned.used i () hi hlock

theorem Inv.store (h : s.Inv) (ha : ∀ i, ¬ (s.pc i).Reads a) :
    Inv { s with mem := Function.update s.mem a v } :=
  ⟨h.owned, fun i => (h.pending i).store (ha i), h.sent⟩

theorem sent_log : (s.send none c).sent = s.sent := by
  simp [ComTasks.sent, send]

theorem sent_send : (s.send (some i) c).sent = s.sent ++ [(i, c)] := by
  simp [ComTasks.sent, send]

theorem Inv.log (h : s.Inv) : (s.send none c).Inv :=
  ⟨h.owned, h.pending, sent_log (s := s) (c := c) ▸ h.sent⟩

end

/-! ## The steps of a task -/

theorem pc_goto : (s.goto i p).pc j = if j = i then p else s.pc j := Function.update_apply ..

theorem holds_goto : ((s.goto i p).pc j).holds = true ↔
    (j = i ∧ p.holds = true) ∨ (j ≠ i ∧ (s.pc j).holds = true) := by
  rw [pc_goto]
  split <;> simp [*]

theorem holds_goto_of_eq (hp : p.holds = (s.pc i).holds) (j : ι) :
    ((s.goto i p).pc j).holds = (s.pc j).holds := by
  rw [pc_goto]
  split
  · next hj => rw [hp, hj]
  · rfl

/-- What the other tasks have to do stays. -/
theorem pending_goto (h : ∀ j, Pending m (s.asked j) (s.pc j)) (hp : Pending m (s.asked i) p)
    (j : ι) : Pending m (s.asked j) ((s.goto i p).pc j) := by
  rw [pc_goto]
  split
  · next hj => exact hj ▸ hp
  · exact h j

namespace Inv

/-- The task goes on on its side of the lock. -/
theorem goto (h : s.Inv) (hp : p.holds = (s.pc i).holds) (hpending : Pending s.mem (s.asked i) p)
    (hsent : (s.asked i).take p.sent = (s.asked i).take (s.pc i).sent) : (s.goto i p).Inv where
  owned := h.owned.mono (fun j _ hj => (holds_goto_of_eq hp j).symm.trans hj) fun _ => id
  pending := pending_goto h.pending hpending
  sent := by
    refine h.sent.congr (fun j => by rw [holds_goto_of_eq hp j]) fun j _ => ?_
    show (s.asked j).take ((s.goto i p).pc j).sent = _
    rw [pc_goto]
    split
    · next hj => rw [hj, hsent]
    · rfl

/-- A call begins outside of the lock, with its buffer before it. -/
theorem write (h : s.Inv) (hw : s.write i size buf = some t) : t.Inv := by
  unfold ComTasks.write at hw
  split at hw
  · next ret hpc =>
    cases hw
    have hp : (ComPc.lock size buf).holds = (s.pc i).holds := by rw [hpc]; rfl
    have hother : ∀ j, (s.pc j).holds = true → j ≠ i := by
      rintro j hj rfl
      rw [hpc] at hj
      cases hj
    refine ⟨h.owned.mono (fun j _ hj => (holds_goto_of_eq hp j).symm.trans hj) fun _ => id,
      fun j => ?_, h.sent.congr (fun j => by rw [← holds_goto_of_eq hp j]) fun j hj => ?_⟩
    · show Pending s.mem (Function.update s.asked i _ j) ((s.goto i _).pc j)
      rw [pc_goto]
      split
      · next hj =>
        rw [hj, Function.update_self]
        exact ⟨Mem.length_slice, Mem.holds_slice⟩
      · next hj =>
        rw [Function.update_of_ne hj]
        exact h.pending j
    · show (Function.update s.asked i _ j).take ((s.goto i _).pc j).sent = _
      rw [pc_goto, if_neg (hother j hj), Function.update_of_ne (hother j hj)]
  · cases hw

theorem acquire (h : s.Inv) (hpc : s.pc i = .lock size buf) (hlock : s.lock = 0) :
    Inv { s.goto i (.loop size 0 buf) with lock := 1 } := by
  have honly : ∀ j, ((s.goto i (.loop size 0 buf)).pc j).holds = true → j = i := by
    intro j hj
    rcases holds_goto.mp hj with ⟨rfl, -⟩ | ⟨-, hheld⟩
    · rfl
    · exact absurd hheld (h.nobody hlock j)
  have hone : (1 : U32) ≠ 0 := by decide
  have hpending := h.pending i
  rw [hpc] at hpending
  refine ⟨⟨fun _ _ _ => hone, fun j j' _ hj hj' => (honly j hj).trans (honly j' hj').symm⟩,
    pending_goto h.pending ⟨hpending.1, Nat.zero_le _, hpending.2⟩,
    h.sent.enter (i := i) (h.nobody hlock) honly ?_ (holds_goto.mpr (Or.inl ⟨rfl, rfl⟩))⟩
  show (s.asked i).take ((s.goto i (.loop size 0 buf)).pc i).sent = []
  rw [pc_goto, if_pos rfl]
  exact List.take_zero

theorem send (h : s.Inv) (hpc : s.pc i = .putc size k buf c) :
    ((s.send (some i) c).goto i (.loop size (k + 1) buf)).Inv := by
  have hheld : (s.pc i).holds = true := by rw [hpc]; rfl
  have hp : (ComPc.loop size (k + 1) buf).holds = (s.pc i).holds := hheld.symm
  have hpending := h.pending i
  rw [hpc] at hpending
  obtain ⟨hlen, hc, hbuf⟩ := hpending
  obtain ⟨hk, -⟩ := List.getElem?_eq_some_iff.mp hc
  refine ⟨h.owned.mono (fun j _ hj => (holds_goto_of_eq hp j).symm.trans hj) fun _ => id,
    pending_goto h.pending ⟨hlen, hk, hbuf⟩, ?_⟩
  show Sectioned _ _ (s.send (some i) c).sent s.served
  rw [sent_send]
  refine h.sent.write hheld (fun j hj => h.only hheld j ((holds_goto_of_eq hp j).symm.trans hj))
    (holds_goto.mpr (Or.inl ⟨rfl, rfl⟩)) ?_
  show (s.asked i).take (((s.send (some i) c).goto i _).pc i).sent = _
  rw [pc_goto, if_pos rfl, hpc]
  show (s.asked i).take (k + 1) = (s.asked i).take k ++ [c]
  rw [List.take_add_one, hc]
  rfl

theorem release (h : s.Inv) (hpc : s.pc i = .unlock size) :
    Inv { s.goto i (.out size) with
      lock := spinUnlock
      served := s.served ++ [(i, s.asked i)] } := by
  have hheld : (s.pc i).holds = true := by rw [hpc]; rfl
  have hfree : ∀ j, ¬ ((s.goto i (.out size)).pc j).holds = true := by
    intro j hj
    rcases holds_goto.mp hj with ⟨-, hout⟩ | ⟨hne, hj⟩
    · cases hout
    · exact hne (h.only hheld j hj)
  have hpending := h.pending i
  rw [hpc] at hpending
  refine ⟨⟨fun j _ hj => absurd hj (hfree j), fun j _ _ hj => absurd hj (hfree j)⟩,
    pending_goto h.pending trivial, h.sent.leave hheld hfree ?_⟩
  rw [hpc]
  exact List.take_of_length_le (Nat.le_of_eq hpending)

theorem step (h : s.Inv) (hstep : s.step i lsr = some t) : t.Inv := by
  have hpending := h.pending i
  unfold ComTasks.step at hstep
  split at hstep
  · cases hstep
  · next size buf hpc =>
    obtain ⟨lock, hlock, rfl⟩ := Option.map_eq_some_iff.mp hstep
    unfold spinLock at hlock
    split at hlock
    · cases hlock
    · next hfree =>
      cases hlock
      exact h.acquire hpc (not_not.mp hfree)
  · next size k buf hpc =>
    rw [hpc] at hpending
    obtain ⟨hlen, hk, hbuf⟩ := hpending
    split at hstep
    · next hlt =>
      cases hstep
      have hk' : k < (s.asked i).length := hlen ▸ hlt
      rw [List.drop_eq_getElem_cons hk', Mem.holds_cons] at hbuf
      refine h.goto (by rw [hpc]; rfl) ⟨hlen, ?_, hbuf.2⟩ (by rw [hpc]; rfl)
      rw [List.getElem?_eq_getElem hk', hbuf.1]
    · next hge =>
      cases hstep
      have hkall : k = size.toNat := by omega
      exact h.goto (by rw [hpc]; rfl) hlen (by rw [hpc, hkall]; rfl)
  · next size k buf c hpc =>
    split at hstep <;> cases hstep
    · exact h
    · exact h.send hpc
  · next size hpc =>
    cases hstep
    exact h.release hpc

theorem exec (h : s.Inv) (hsafe : op.Safe s) (hstep : ComStep s op t) : t.Inv := by
  cases op with
  | write i size buf => exact h.write hstep
  | step i lsr => exact h.step hstep
  | log c =>
    cases hstep
    exact h.log
  | store a v =>
    cases hstep
    exact h.store hsafe

end Inv

/-- In every interleaving of calls of `write_com` with each other, with the log and with stores
elsewhere, what the calls send is the buffers of the calls that have ended, one after another in the
order of their ends, and a beginning of the buffer of the task that has the lock. -/
theorem com_line {ops : List (ComOp ι)} (hs : s.Start) (hrun : Run ComStep s ops t)
    (hsafe : ∀ u op v, PassedStep ComStep s ops t u op v → op.Safe u) :
    ∃ rest, t.sent = t.served.flatMap entries ++ rest ∧
      (rest = [] ∨ ∃ i, (t.pc i).holds = true ∧ rest <+: entries (i, t.asked i)) := by
  have hinv : t.Inv := by
    refine (hrun.passed_end).invariant ?_ hs.inv
    rintro u op v hpass hu
    obtain ⟨_, _, _, _, hstep, _⟩ := id hpass
    exact hu.exec (hsafe u op v hpass) hstep
  obtain ⟨rest, hrest, hcut⟩ := hinv.sent.exists_rest
  refine ⟨rest, hrest, hcut.imp_right ?_⟩
  rintro ⟨i, hi, rfl⟩
  exact ⟨i, hi, (List.take_prefix _ _).map _⟩

/-- A task writes one byte, and a character of the log comes between its read and the port. -/
theorem com_line_once :
    let s : ComTasks Bool := ⟨fun _ => 0x41, 0, fun _ => .out 0, [], fun _ => [], []⟩
    let ops : List (ComOp Bool) :=
      [.write true 1 0, .step true 0, .step true 0, .log 0x42, .step true 0x20, .step true 0,
        .step true 0]
    ∃ t, Run ComStep s ops t ∧ ∃ rest, t.sent = t.served.flatMap entries ++ rest ∧
      (rest = [] ∨ ∃ i, (t.pc i).holds = true ∧ rest <+: entries (i, t.asked i)) := by
  intro s ops
  have hrun : ∃ t, Run ComStep s ops t := ⟨_, Run.of_foldlM rfl⟩
  obtain ⟨t, hrun⟩ := hrun
  refine ⟨t, hrun, com_line ⟨rfl, fun _ => ⟨0, rfl⟩, rfl, rfl⟩ hrun ?_⟩
  rintro u op v ⟨before, after, hops, -⟩
  have hmem : op ∈ ops := by simp [hops]
  have hall : ∀ op ∈ ops, ∀ u, op.Safe u := by simp [ops, ComOp.Safe]
  exact hall op hmem u

end ComTasks

end PiggyOS
