import Codegen.Proofs.Coverage
import Codegen.Proofs.Emission

/-!
# Simulation — what code computes for a node

Code for a node leaves the node's value in an operand.  An operand in memory is not loaded: it holds
the address of the place that the node names, and what is found there is read later, by the
instruction that uses it.  Since code writes registers that were not issued before, an operand holds
what it held while further code runs.

* `X64.Agrees`   : a machine state shows the registers that expressions read
* `X64.Denotes`  : the word that a node denotes as an operand of a form
* `X64.Holds`    : an operand holds a word
* `X64.Computes` : code makes an operand hold what a node denotes
-/

namespace Codegen
namespace X64

open Machine

variable {extend : Word → Word} {env : Env} {a : Arena} {s s' : State} {k k' k₀ : Nat}

/-! ## Environments -/

/-- The environment has the state's frame pointer and its registers below `k`. -/
structure Agrees (k : Nat) (env : Env) (s : State) : Prop where
  frame : env.frame = s.world.fixed .rbp
  regs : ∀ i < k, env.regs i = s.file i

theorem Agrees.kept (h : Agrees k₀ env s) (hle : k₀ ≤ k) (hkept : Kept k s s') :
    Agrees k₀ env s' where
  frame := h.frame.trans (hkept.fixed .rbp (by decide) (by decide) (by decide)).symm
  regs i hi := (h.regs i hi).trans (hkept.file i (Nat.lt_of_lt_of_le hi hle)).symm

theorem Agrees.address (h : Agrees k env s) {addr : Address}
    (ha : Operand.Usable k (.mem addr)) : env.address addr = Machine.addressOf s addr := by
  rcases addr with ⟨base, disp⟩
  cases base with
  | absolute => rfl
  | framePointer => simp only [Env.address, Machine.addressOf, h.frame]
  | reg r => simp only [Env.address, Machine.addressOf, h.regs r.index ha]

theorem Agrees.address_frame (h : Agrees k env s) (offset : Int) :
    env.address (.frame offset) = Machine.addressOf s (.frame offset) :=
  h.address trivial

/-! ## Operands -/

/-- What a node denotes: the address of a place as a memory operand, and its value otherwise. -/
def Denotes (extend : Word → Word) (env : Env) (a : Arena) :
    Nonterminal → Node → Memory → Word → Memory → Prop
  | .mem => Locates extend env a
  | .reg | .imm => Evaluates extend env a

/-- The operand holds the word; a memory operand holds its address. -/
def Holds (s : State) (u : Word) : Operand → Prop
  | .mem addr => Machine.addressOf s addr = u
  | o => contents? s o = some u

theorem Holds.kept {u : Word} {o : Operand} (h : Holds s u o) (ho : o.Usable k)
    (hkept : Kept k s s') : Holds s' u o := by
  cases o with
  | vreg r => exact (congrArg some (hkept.file r.index ho)).trans h
  | mem addr => exact (hkept.addressOf ho).trans h
  | imm value => exact h
  | fixed r => exact absurd ho not_false
  | symbol name => exact absurd ho not_false

/-- The operands that the node at `id` can be reduced to. -/
def Fits (a : Arena) (id : NodeId) : Nonterminal → Operand → Prop
  | .reg, .vreg _ => True
  | .imm, .imm value => a.get? id = some (.literal value)
  | .mem, .mem _ => ∃ n, a.get? id = some n ∧ n.kind.IsPlace
  | _, _ => False

/-! ## Code -/

/-- Wherever the node at `id` denotes a word, running `code` leaves the memory that evaluating the
node leaves, and `o` holding that word. -/
def Computes (a : Arena) (k₀ : Nat) (id : NodeId) (x : Nonterminal) (code : List Instr) (k : Nat)
    (o : Operand) : Prop :=
  ∀ extend env s n u m', Agrees k₀ env s → a.get? id = some n →
    Denotes extend env a x n s.world.memory u m' →
      Reaches extend code k s m' fun s' => Holds s' u o

variable {id c c' : NodeId} {n l r : Node} {x y : Nonterminal} {code code' : List Instr}
  {o o' : Operand} {u v : Word} {m m' : Memory}

/-- Read as an operand of an instruction, `o` is the value of the node. -/
theorem Computes.value (h : Computes a k₀ id x code k o) (hfits : Fits a id x o)
    (hagrees : Agrees k₀ env s) (hn : a.get? id = some n)
    (hv : Evaluates extend env a n s.world.memory v m') :
    Reaches extend code k s m' fun s' => contents? s' o = some v := by
  cases x with
  | reg =>
      cases o with
      | vreg r => exact h extend env s n v m' hagrees hn hv
      | _ => exact absurd hfits not_false
  | imm =>
      cases o with
      | imm value => exact h extend env s n v m' hagrees hn hv
      | _ => exact absurd hfits not_false
  | mem =>
      cases o with
      | mem addr =>
          rcases hfits with ⟨n', hn', hplace⟩
          cases hn.symm.trans hn'
          rcases hv.exists_locates hplace with ⟨p, hp, rfl⟩
          refine (h extend env s n p m' hagrees hn hp).mono (Nat.le_refl k) ?_
          intro s' hmemory haddress
          rw [Machine.contents?, hmemory, haddress]
      | _ => exact absurd hfits not_false

theorem Leaves.holds {d : VirtualReg} (h : Leaves extend code s d.index k' v) (hle : k ≤ k')
    (hmemory : s.world.memory = m) :
    Reaches extend code k s m fun s' => Holds s' v (.vreg d) := by
  rw [← hmemory]
  exact h.mono hle fun s' _ hfile => congrArg some hfile

/-! ## Leaves of the tree -/

theorem computes_literal {value : Int} (hn : a.get? id = some (.literal value)) :
    Computes a k₀ id .imm [] k (.imm value) := by
  intro extend env s n v m' _ hn' hv
  cases hn.symm.trans hn'
  cases hv with
  | literal => exact .nil rfl
  | load hloc => cases hloc

theorem computes_vreg {reg : VirtualReg} (hn : a.get? id = some (.vreg reg))
    (hreg : reg.index < k₀) : Computes a k₀ id .reg [] k (.vreg reg) := by
  intro extend env s n v m' hagrees hn' hv
  cases hn.symm.trans hn'
  cases hv with
  | vreg => exact .nil (congrArg some (hagrees.regs reg.index hreg).symm)
  | load hloc => cases hloc

theorem computes_var {var : Variable} (hn : a.get? id = some (.var var)) :
    Computes a k₀ id .mem [] k (.mem (.frame var.offset)) := by
  intro extend env s n p m' hagrees hn' hp
  cases hn.symm.trans hn'
  cases hp
  exact .nil (hagrees.address_frame var.offset).symm

theorem computes_mem {addr : Address} (hn : a.get? id = some (.mem addr))
    (haddr : Operand.Usable k₀ (.mem addr)) : Computes a k₀ id .mem [] k (.mem addr) := by
  intro extend env s n p m' hagrees hn' hp
  cases hn.symm.trans hn'
  cases hp
  exact .nil (hagrees.address haddr).symm

theorem computes_framePointer {d : VirtualReg} (hn : a.get? id = some .framePointer)
    (hd : k ≤ d.index) :
    Computes a k₀ id .reg [.move (.vreg d) (.fixed .rbp)] k (.vreg d) := by
  intro extend env s n v m' hagrees hn' hv
  cases hn.symm.trans hn'
  cases hv with
  | framePointer =>
      have hrbp : contents? s (.fixed .rbp) = some env.frame := congrArg some hagrees.frame.symm
      exact (leaves_move hd hrbp).holds (Nat.le_refl k) rfl
  | load hloc => cases hloc

theorem computes_addrOf {var : Variable} {d : VirtualReg} (hn : a.get? id = some (.addrOf var))
    (hd : k ≤ d.index) :
    Computes a k₀ id .reg [.binary .lea (.vreg d) (.mem (.frame var.offset))] k (.vreg d) := by
  intro extend env s n v m' hagrees hn' hv
  cases hn.symm.trans hn'
  cases hv with
  | addrOf =>
      rw [hagrees.address_frame]
      exact (leaves_lea hd _).holds (Nat.le_refl k) rfl
  | load hloc => cases hloc

/-! ## One operand -/

section

variable {d : VirtualReg} (h : Computes a k₀ c x code k o) (hfits : Fits a c x o)

include h hfits

theorem Computes.copy (hd : k ≤ d.index) :
    Computes a k₀ c .reg (code ++ [.move (.vreg d) o]) k (.vreg d) := by
  intro extend env s n v m' hagrees hn hv
  refine (h.value hfits hagrees hn hv).append fun s₁ hmemory _ hv₁ => ?_
  exact (leaves_move hd hv₁).holds (Nat.le_refl k) hmemory

theorem Computes.signExtend (hn : a.get? id = some (.signExtend c)) (hd : k ≤ d.index) :
    Computes a k₀ id .reg (code ++ [.binary .movsx (.vreg d) o]) k (.vreg d) := by
  intro extend env s n v m' hagrees hn' hv
  cases hn.symm.trans hn'
  cases hv with
  | signExtend hc hx =>
      refine (h.value hfits hagrees hc hx).append fun s₁ hmemory _ hx₁ => ?_
      exact (leaves_movsx hd hx₁).holds (Nat.le_refl k) hmemory
  | load hloc => cases hloc

theorem Computes.unary {op : UnaryOp} (hn : a.get? id = some (.unary op c)) (hd : k ≤ d.index)
    (ho : o.Usable d.index) :
    Computes a k₀ id .reg (code ++ inPlace op d o) k (.vreg d) := by
  intro extend env s n v m' hagrees hn' hv
  cases hn.symm.trans hn'
  cases hv with
  | unary hc hx =>
      refine (h.value hfits hagrees hc hx).append fun s₁ hmemory _ hx₁ => ?_
      exact (leaves_inPlace op (Nat.le_refl d.index) ho hx₁).holds hd hmemory
  | load hloc => cases hloc

end

theorem Computes.grouping (h : Computes a k₀ c .reg code k o)
    (hn : a.get? id = some (.grouping c)) : Computes a k₀ id .reg code k o := by
  intro extend env s n v m' hagrees hn' hv
  cases hn.symm.trans hn'
  cases hv with
  | grouping hc hx => exact h extend env s _ v m' hagrees hc hx
  | load hloc => cases hloc

/-- A register that holds an address is the base of the place there. -/
theorem Computes.deref {base : VirtualReg} (h : Computes a k₀ c .reg code k (.vreg base))
    (hn : a.get? id = some (.deref c)) :
    Computes a k₀ id .mem code k (.mem (.ofReg base 0)) := by
  intro extend env s n p m' hagrees hn' hp
  cases hn.symm.trans hn'
  cases hp with
  | deref hc hx =>
      refine (h extend env s _ p m' hagrees hc hx).mono (Nat.le_refl k) fun s' _ hheld => ?_
      have hbase : s'.file base.index = p := Option.some.inj hheld
      simp [Holds, Machine.addressOf, Address.ofReg, hbase]

/-! ## Two operands -/

/-- Code for two operands, one after the other; `k'` is the number of registers issued before the
second one. -/
structure Operands (a : Arena) (k₀ : Nat) (c : NodeId) (x : Nonterminal) (c' : NodeId)
    (y : Nonterminal) (code code' : List Instr) (k k' : Nat) (o o' : Operand) : Prop where
  first : Computes a k₀ c x code k o
  fits : Fits a c x o
  usable : o.Usable k'
  second : Computes a k₀ c' y code' k' o'
  fits' : Fits a c' y o'
  initial : k₀ ≤ k
  later : k ≤ k'

namespace Operands

variable {d : VirtualReg}

/-- The first operand holds its word until the second one is there. -/
theorem pair (h : Operands a k₀ c x c' y code code' k k' o o') (hagrees : Agrees k₀ env s)
    (hl : a.get? c = some l) (hu : Denotes extend env a x l s.world.memory u m)
    (hr : a.get? c' = some r) (hv : Evaluates extend env a r m v m') :
    Reaches extend (code ++ code') k s m' fun s' => Holds s' u o ∧ contents? s' o' = some v := by
  refine (h.first extend env s l u m hagrees hl hu).append fun s₁ hmemory hkept hheld => ?_
  rw [← hmemory] at hv
  rcases h.second.value h.fits' (hagrees.kept h.initial hkept) hr hv with
    ⟨s₂, hexec, hmemory', hkept', hv'⟩
  exact ⟨s₂, hexec, hmemory', hkept'.mono h.later, hheld.kept h.usable hkept', hv'⟩

/-- If the first operand is a register, then both are values when the code has run. -/
theorem values (h : Operands a k₀ c .reg c' y code code' k k' o o') (hagrees : Agrees k₀ env s)
    (hl : a.get? c = some l) (hu : Evaluates extend env a l s.world.memory u m)
    (hr : a.get? c' = some r) (hv : Evaluates extend env a r m v m') :
    Reaches extend (code ++ code') k s m' fun s' =>
      contents? s' o = some u ∧ contents? s' o' = some v := by
  refine (h.pair hagrees hl hu hr hv).mono (Nat.le_refl k) fun s' _ hheld => ?_
  have hfits := h.fits
  cases o with
  | vreg reg => exact hheld
  | _ => exact absurd hfits not_false

theorem binary {op : BinaryOp} (h : Operands a k₀ c .reg c' y code code' k k' o o')
    (hn : a.get? id = some (.binary op c c')) (hd : k ≤ d.index) (husable' : o'.Usable d.index) :
    Computes a k₀ id .reg (code ++ code' ++ arithmetic op d o o') k (.vreg d) := by
  intro extend env s n v m' hagrees hn' hv
  cases hn.symm.trans hn'
  cases hv with
  | binary hl hu hr hw happly =>
      refine (h.values hagrees hl hu hr hw).append fun s₁ hmemory _ hvalues => ?_
      exact (leaves_arithmetic happly (Nat.le_refl d.index) husable' hvalues.1 hvalues.2).holds hd
        hmemory
  | load hloc => cases hloc

theorem compare {op : CompareOp} (h : Operands a k₀ c .reg c' y code code' k k' o o')
    (hn : a.get? id = some (.compare op c c')) (hd : k ≤ d.index) (husable : o.Usable d.index)
    (husable' : o'.Usable d.index) :
    Computes a k₀ id .reg (code ++ code' ++ comparison op.condition d o o') k (.vreg d) := by
  intro extend env s n v m' hagrees hn' hv
  cases hn.symm.trans hn'
  cases hv with
  | compare hl hu hr hw =>
      refine (h.values hagrees hl hu hr hw).append fun s₁ hmemory _ hvalues => ?_
      rw [← holds_condition]
      exact (leaves_comparison op.condition (Nat.le_refl d.index) husable husable' hvalues.1
        hvalues.2).holds hd hmemory
  | load hloc => cases hloc

/-- The two registers before `d` take the truth values of the operands. -/
theorem logical {left right : VirtualReg} {op : LogicalOp}
    (h : Operands a k₀ c .reg c' y code code' k k' o o') (hn : a.get? id = some (.logical op c c'))
    (hleft : k ≤ left.index) (hright : left.index < right.index) (hd : right.index < d.index)
    (husable : o.Usable left.index) (husable' : o'.Usable left.index) :
    Computes a k₀ id .reg (code ++ code' ++ junction op left right d o o') k (.vreg d) := by
  intro extend env s n v m' hagrees hn' hv
  cases hn.symm.trans hn'
  cases hv with
  | logical hl hu hr hw =>
      refine (h.values hagrees hl hu hr hw).append fun s₁ hmemory _ hvalues => ?_
      exact (leaves_junction op (Nat.le_refl left.index) hright hd husable husable' hvalues.1
        hvalues.2).holds hleft hmemory
  | load hloc => cases hloc

/-- A store goes to the address that the first operand holds; the second one, a register, still has
the value afterwards. -/
theorem assign {addr : Address} {reg : VirtualReg}
    (h : Operands a k₀ c .mem c' .reg code code' k k' (.mem addr) (.vreg reg))
    (hn : a.get? id = some (.assign c c')) :
    Computes a k₀ id .reg (code ++ code' ++ [.move (.mem addr) (.vreg reg)]) k (.vreg reg) := by
  intro extend env s n v m' hagrees hn' hv
  cases hn.symm.trans hn'
  cases hv with
  | assign hl hp hr hw =>
      refine (h.pair hagrees hl hp hr hw).append fun s₁ hmemory _ hheld => ?_
      rw [← hmemory, ← hheld.1]
      refine (reaches_store addr hheld.2).mono (Nat.le_refl k) fun s' _ hfile => ?_
      have hsame : contents? s' (.vreg reg) = contents? s₁ (.vreg reg) := by
        simp only [Machine.contents?, hfile]
      exact hsame.trans hheld.2
  | load hloc => cases hloc

end Operands

/-- Adding or subtracting a literal is adding its displacement. -/
theorem add_displacement? {op : BinaryOp} {value disp : Int} {x p : Word}
    (hop : op = .add ∨ op = .sub) (hdisp : displacement? op value = some disp)
    (hp : op.apply? x (BitVec.ofInt 64 value) = some p) : x + BitVec.ofInt 64 disp = p := by
  unfold displacement? at hdisp
  rcases Option.ite_none_right_eq_some.1 hdisp with ⟨-, hdisp⟩
  rcases hop with rfl | rfl
  · cases hdisp
    cases hp
    rfl
  · cases hdisp
    cases hp
    rw [if_pos rfl, BitVec.ofInt_neg, BitVec.sub_eq_add_neg]

/-- The literal of a sum goes into the address; the sum itself is never computed. -/
theorem Operands.derefFolded {sum : NodeId} {op : BinaryOp} {base : VirtualReg} {value disp : Int}
    (h : Operands a k₀ c .reg c' .imm code code' k k' (.vreg base) (.imm value))
    (hn : a.get? id = some (.deref sum)) (hsum : a.get? sum = some (.binary op c c'))
    (hop : op = .add ∨ op = .sub) (hdisp : displacement? op value = some disp) :
    Computes a k₀ id .mem (code ++ code') k (.mem (.ofReg base disp)) := by
  intro extend env s n p m' hagrees hn' hp
  cases hn.symm.trans hn'
  cases hp with
  | deref hc hx =>
      cases hsum.symm.trans hc
      cases hx with
      | binary hl hu hr hw happly =>
          refine (h.values hagrees hl hu hr hw).mono (Nat.le_refl k) fun s' _ hvalues => ?_
          have hbase := Option.some.inj hvalues.1
          rw [← Option.some.inj hvalues.2] at happly
          have haddress := add_displacement? hop hdisp happly
          rw [← haddress, ← hbase]
          rfl
      | load hloc => cases hloc

end X64
end Codegen
