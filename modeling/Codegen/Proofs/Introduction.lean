import Codegen.Compile
import Codegen.Proofs.Binding
import Codegen.Proofs.Coverage
import Codegen.Proofs.Session
import Mathlib.Data.List.Sort

/-!
# Introduction — registers are defined before they are used, in the order of issue

A register is issued right before the sequence that gives it a value, and its number is remembered
nowhere but in that sequence and in a node that is appended afterwards.  So whatever is selected,
with whatever sharing between trees, and whether it is refused or not, the stream names every
register that was issued, and it names each for the first time where it defines it, one after the
other.

* `Introduces`                      : code that makes registers known one after the other
* `Selection.Ordered`               : the stream introduces what was issued
* `X64.respects_advances`           : all procedures keep that
* `Target.selects_introduces`       : and so do all selections
-/

namespace Codegen

/-! ## Code that introduces registers -/

/-- The operand mentions no register from `k` on. -/
def Operand.Known (k : Nat) (o : Operand) : Prop := ∀ r, o.reg? = some r → r.index < k

theorem Operand.Known.mono {k k' : Nat} (hle : k ≤ k') {o : Operand} (h : o.Known k) : o.Known k' :=
  fun r hr => (h r hr).trans_le hle

/-- When the registers below `k` are known, every instruction of the code mentions known ones only,
or it makes the next one known by defining it; in the end those below `k'` are known. -/
inductive Introduces : Nat → List Instr → Nat → Prop
  | nil (k : Nat) : Introduces k [] k
  | mention {k k' : Nat} {i : Instr} {code : List Instr} : (∀ r ∈ i.regs, r.index < k) →
      Introduces k code k' → Introduces k (i :: code) k'
  | define {k k' : Nat} {i : Instr} {code : List Instr} : i.Defines k →
      (∀ o ∈ i.src, o.Known k) → Introduces (k + 1) code k' → Introduces k (i :: code) k'

theorem Instr.mem_regs_iff {i : Instr} {r : VirtualReg} :
    r ∈ i.regs ↔ (∃ o ∈ i.dst, o.reg? = some r) ∨ ∃ o ∈ i.src, o.reg? = some r := by
  simp [Instr.regs, Instr.operands]

theorem Instr.Defines.exists_mem_regs {i : Instr} {v : Nat} (h : i.Defines v) :
    ∃ r ∈ i.regs, r.index = v := by
  rcases h.2.1 with ⟨r, hr, hv⟩
  exact ⟨r, Instr.mem_regs_iff.2 (.inl ⟨_, hr, rfl⟩), hv⟩

theorem Instr.Defines.eq {i : Instr} {v w : Nat} (h : i.Defines v) (h' : i.Defines w) : v = w := by
  rcases h.2.1 with ⟨r, hr, rfl⟩
  rcases h'.2.1 with ⟨r', hr', rfl⟩
  cases hr.symm.trans hr'
  rfl

namespace Introduces

variable {k k' k'' : Nat} {code rest : List Instr} {i : Instr}

theorem append (h : Introduces k code k') (h' : Introduces k' rest k'') :
    Introduces k (code ++ rest) k'' := by
  induction h with
  | nil k => exact h'
  | mention hregs _ ih => exact .mention hregs (ih h')
  | define hdefines hsrc _ ih => exact .define hdefines hsrc (ih h')

theorem le (h : Introduces k code k') : k ≤ k' := by
  induction h with
  | nil k => exact Nat.le_refl k
  | mention _ _ ih => exact ih
  | define _ _ _ ih => exact Nat.le_of_succ_le ih

/-- Code that mentions known registers only. -/
theorem of_known (h : ∀ i ∈ code, ∀ r ∈ i.regs, r.index < k) : Introduces k code k := by
  induction code with
  | nil => exact .nil k
  | cons i code ih =>
      exact .mention (h i List.mem_cons_self) (ih fun j hj => h j (List.mem_cons_of_mem i hj))

/-- An instruction that defines the next register mentions no later one. -/
theorem lt_of_define (hdefines : i.Defines k) (hsrc : ∀ o ∈ i.src, o.Known k) {r : VirtualReg}
    (hr : r ∈ i.regs) : r.index < k + 1 := by
  rcases Instr.mem_regs_iff.1 hr with ⟨o, ho, hr⟩ | ⟨o, ho, hr⟩
  · rcases hdefines.2.1 with ⟨r', hr', rfl⟩
    cases hr'.symm.trans ho
    cases hr
    exact Nat.lt_succ_self _
  · exact Nat.lt_succ_of_lt (hsrc o ho r hr)

theorem lt (h : Introduces k code k') (hi : i ∈ code) {r : VirtualReg} (hr : r ∈ i.regs) :
    r.index < k' := by
  induction h with
  | nil k => cases hi
  | mention hregs hcode ih =>
      rcases List.mem_cons.1 hi with rfl | hi
      · exact (hregs r hr).trans_le hcode.le
      · exact ih hi
  | define hdefines hsrc hcode ih =>
      rcases List.mem_cons.1 hi with rfl | hi
      · exact (lt_of_define hdefines hsrc hr).trans_le hcode.le
      · exact ih hi

/-- A register that is made known is defined somewhere, and up to there only earlier ones are
mentioned. -/
theorem exists_defines (h : Introduces k code k') {v : Nat} (hle : k ≤ v) (hlt : v < k') :
    ∃ (p : Nat) (i : Instr), code[p]? = some i ∧ i.Defines v ∧
      ∀ q < p, ∀ j : Instr, code[q]? = some j → ∀ r ∈ j.regs, r.index < v := by
  induction h with
  | nil k => omega
  | mention hregs _ ih =>
      rcases ih hle hlt with ⟨p, j, hj, hdefines, hbefore⟩
      refine ⟨p + 1, j, hj, hdefines, ?_⟩
      rintro (_ | q) hq j' hj' r hr
      · cases hj'
        exact (hregs r hr).trans_le hle
      · exact hbefore q (Nat.lt_of_succ_lt_succ hq) j' hj' r hr
  | define hdefines hsrc _ ih =>
      rcases Nat.eq_or_lt_of_le hle with rfl | hnext
      · exact ⟨0, _, rfl, hdefines, nofun⟩
      · rcases ih hnext hlt with ⟨p, j, hj, hdefines', hbefore⟩
        refine ⟨p + 1, j, hj, hdefines', ?_⟩
        rintro (_ | q) hq j' hj' r hr
        · cases hj'
          exact (lt_of_define hdefines hsrc hr).trans_le hnext
        · exact hbefore q (Nat.lt_of_succ_lt_succ hq) j' hj' r hr

end Introduces

/-! ## Streams that introduce their registers -/

namespace Stream

variable {s : Stream} {n v w p q : Nat} (h : Introduces 0 s.toList n)
include h

/-- The first mention of a register is its definition, and earlier mentions are of earlier ones. -/
theorem exists_first (hv : v < n) : ∃ (p : Nat) (i : Instr), s[p]? = some i ∧ i.Defines v ∧
    IsLeast {q | MentionsAt s v q} p ∧ ∀ w q, MentionsAt s w q → q < p → w < v := by
  rcases h.exists_defines (Nat.zero_le v) hv with ⟨p, i, hi, hdefines, hbefore⟩
  rw [Array.getElem?_toList] at hi
  have hearlier : ∀ w q, MentionsAt s w q → q < p → w < v := by
    rintro w q ⟨j, hj, r, hr, rfl⟩ hq
    rw [← Array.getElem?_toList] at hj
    exact hbefore q hq j hj r hr
  refine ⟨p, i, hi, hdefines, ⟨⟨i, hi, hdefines.exists_mem_regs⟩, ?_⟩, hearlier⟩
  intro q hq
  exact Nat.le_of_not_lt fun hlt => absurd (hearlier v q hq hlt) (Nat.lt_irrefl v)

theorem exists_mentionsAt_iff : (∃ p, MentionsAt s v p) ↔ v < n := by
  constructor
  · rintro ⟨p, i, hi, r, hr, rfl⟩
    rw [← Array.getElem?_toList] at hi
    exact h.lt (List.mem_of_getElem? hi) hr
  · intro hv
    rcases exists_first h hv with ⟨p, i, -, -, hleast, -⟩
    exact ⟨p, hleast.1⟩

theorem defines_of_isLeast (hp : IsLeast {q | MentionsAt s v q} p) :
    ∃ i, s[p]? = some i ∧ i.Defines v := by
  have hv : v < n := (exists_mentionsAt_iff h).1 ⟨p, hp.1⟩
  rcases exists_first h hv with ⟨p', i, hi, hdefines, hleast, -⟩
  cases hp.unique hleast
  exact ⟨i, hi, hdefines⟩

theorem isLeast_lt_isLeast (hvw : v < w) (hp : IsLeast {q | MentionsAt s v q} p)
    (hq : IsLeast {q | MentionsAt s w q} q) : p < q := by
  rcases exists_first h ((exists_mentionsAt_iff h).1 ⟨p, hp.1⟩) with
    ⟨p', i, hi, hdefines, hleast, hearlier⟩
  cases hp.unique hleast
  rcases Nat.lt_trichotomy p q with hlt | rfl | hgt
  · exact hlt
  · -- one instruction defines one register only
    rcases defines_of_isLeast h hq with ⟨j, hj, hdefines'⟩
    cases hi.symm.trans hj
    exact absurd (hdefines.eq hdefines') (Nat.ne_of_lt hvw)
  · exact absurd (hearlier w q hq.1 hgt) (Nat.not_lt.2 hvw.le)

/-- The intervals of the stream list the registers by their numbers. -/
theorem map_vreg_liveIntervals : (liveIntervals s).map LiveInterval.vreg = List.range n := by
  have hfirst : ∀ a ∈ liveIntervals s, IsLeast {q | MentionsAt s a.vreg q} a.start := by
    intro a ha
    exact (liveIntervals_exact ha).1
  have hdistinct : (liveIntervals s).Pairwise fun a b => a.vreg ≠ b.vreg :=
    List.pairwise_map.1 (nodup_vreg_liveIntervals s)
  have hsorted : ((liveIntervals s).map LiveInterval.vreg).Pairwise (· < ·) := by
    refine List.pairwise_map.2 (((liveIntervals_pairwise s).and hdistinct).imp_of_mem ?_)
    rintro a b ha hb ⟨hstart, hne⟩
    refine Nat.lt_of_le_of_ne (Nat.le_of_not_lt fun hlt => ?_) hne
    have := isLeast_lt_isLeast h hlt (hfirst b hb) (hfirst a ha)
    omega
  refine List.Pairwise.eq_of_mem_iff hsorted List.pairwise_lt_range ?_
  intro v
  rw [List.mem_range, ← exists_mentionsAt_iff h, List.mem_map]
  constructor
  · rintro ⟨a, ha, rfl⟩
    exact ⟨a.start, (hfirst a ha).1⟩
  · rintro ⟨p, hp⟩
    exact exists_mem_liveIntervals hp

end Stream

/-! ## Emitted sequences -/

namespace Introduces

variable {k k' : Nat} {op : Opcode} {d : VirtualReg} {x y : Operand} {code : List Instr}

theorem defining (hop : op = .mov ∨ op = .movsx ∨ op = .lea) (hd : d.index = k) (hx : x.Known k)
    (h : Introduces (k + 1) code k') : Introduces k (.binary op (.vreg d) x :: code) k' := by
  refine .define ⟨hop, ⟨d, rfl, hd⟩, ?_⟩ ?_ h
  · rintro o r ho hr
    cases ho
    exact Nat.ne_of_lt (hx r hr)
  · rintro o ho
    cases ho
    exact hx

theorem move (hd : d.index = k) (hx : x.Known k) (h : Introduces (k + 1) code k') :
    Introduces k (.move (.vreg d) x :: code) k' :=
  defining (.inl rfl) hd hx h

theorem binary (hx : x.Known k) (hy : y.Known k) (h : Introduces k code k') :
    Introduces k (.binary op x y :: code) k' := by
  refine .mention ?_ h
  intro r hr
  rcases Instr.mem_regs_iff.1 hr with ⟨o, ho, hr⟩ | ⟨o, ho, hr⟩
  · cases ho
    exact hx r hr
  · cases ho
    exact hy r hr

theorem unary (hx : x.Known k) (h : Introduces k code k') :
    Introduces k (.unary op x :: code) k' := by
  refine .mention ?_ h
  intro r hr
  rcases Instr.mem_regs_iff.1 hr with ⟨o, ho, hr⟩ | ⟨o, ho, hr⟩
  · cases ho
    exact hx r hr
  · cases ho

end Introduces

namespace X64

open SelectM

variable {k : Nat} {d : VirtualReg} {x y : Operand}

theorem known_vreg (h : d.index < k) : Operand.Known k (.vreg d) := by
  rintro r hr
  cases hr
  exact h

theorem known_fixed (k : Nat) (r : MachineReg) : Operand.Known k (.fixed r) := nofun

theorem known_imm (k : Nat) (value : Int) : Operand.Known k (.imm value) := nofun

theorem known_frame (k : Nat) (disp : Int) : Operand.Known k (.mem (.frame disp)) := by
  intro r hr
  cases hr

section Sequences

variable (hd : d.index = k) (hx : x.Known k) (hy : y.Known k)
include hd hx

theorem introduces_move : Introduces k [.move (.vreg d) x] (k + 1) := .move hd hx (.nil _)

theorem introduces_inPlace (op : UnaryOp) : Introduces k (inPlace op d x) (k + 1) := by
  have hknown : Operand.Known (k + 1) (.vreg d) := known_vreg (by omega)
  cases op with
  | neg => exact .move hd hx (.unary hknown (.nil _))
  | not => exact .move hd hx (.unary hknown (.nil _))
  | logicalNot =>
      exact .move hd (known_imm k 0) (.binary (hx.mono k.le_succ) (known_imm _ 0)
        (.unary hknown (.nil _)))

include hy

theorem introduces_comparison (c : Condition) : Introduces k (comparison c d x y) (k + 1) :=
  .move hd (known_imm k 0) (.binary (hx.mono k.le_succ) (hy.mono k.le_succ)
    (.unary (known_vreg (by omega)) (.nil _)))

theorem introduces_arithmetic (op : BinaryOp) : Introduces k (arithmetic op d x y) (k + 1) := by
  have hknown : Operand.Known (k + 1) (.vreg d) := known_vreg (by omega)
  have hcqo : ∀ r ∈ (Instr.bare .cqo).regs, r.index < k := nofun
  unfold arithmetic
  split
  · exact .binary (known_fixed k _) hx (.mention hcqo (.unary hy (.move hd (known_fixed k _)
      (.nil _))))
  · split
    · exact .move hd hx (.binary (known_fixed _ _) (hy.mono k.le_succ)
        (.binary hknown (known_fixed _ _) (.nil _)))
    · exact .move hd hx (.binary hknown (hy.mono k.le_succ) (.nil _))

end Sequences

/-- Passing values mentions them and nothing else; the result comes last. -/
theorem introduces_callSequence (callee : String) {values : List Operand}
    (hvalues : ∀ o ∈ values, o.Known k) (hd : d.index = k) :
    Introduces k (callSequence callee values d) (k + 1) := by
  rcases callSequence_cases callee values d with ⟨front, heq, hfront⟩
  rw [heq]
  refine Introduces.append (.of_known ?_) (introduces_move hd (known_fixed k .rax))
  intro i hi r hr
  rcases hfront i hi with ⟨o, ho, rfl | ⟨reg, rfl⟩⟩ | rfl | rfl
  · exact (Introduces.unary (hvalues o ho) (.nil k)).lt List.mem_cons_self hr
  · exact (Introduces.binary (known_fixed k reg) (hvalues o ho) (.nil k)).lt List.mem_cons_self hr
  · cases hr
  · cases hr

end X64

/-! ## The invariant -/

namespace Selection

/-- As many registers were issued as were counted, the nodes of the arena name none but them, and
the stream introduces them. -/
structure Ordered (s : Selection) : Prop where
  counted : s.stats.vregs = s.nextReg
  named : ∀ m n reg, s.arena.get? m = some n → n.reg? = some reg → reg.index < s.nextReg
  stream : Introduces 0 s.stream.toList s.nextReg

/-- What is in order stays in order, while registers are issued. -/
def Advances (s s' : Selection) : Prop := s.Ordered → s'.Ordered ∧ s.nextReg ≤ s'.nextReg

theorem Advances.refl (s : Selection) : s.Advances s := fun h => ⟨h, Nat.le_refl _⟩

theorem Advances.trans {s s' s'' : Selection} (h : s.Advances s') (h' : s'.Advances s'') :
    s.Advances s'' := by
  intro hs
  rcases h hs with ⟨hs', hle⟩
  rcases h' hs' with ⟨hs'', hle'⟩
  exact ⟨hs'', hle.trans hle'⟩

theorem reg?_of_operand? {n : Node} {o : Operand} (h : n.operand? = some o) :
    n.reg? = o.reg? := by
  cases n <;> cases h
  case mem a =>
    rcases a with ⟨base, disp⟩
    cases base <;> rfl
  all_goals rfl

theorem reg?_of_setChild? {n n' : Node} {slot : Nat} {v : NodeId}
    (h : n.setChild? slot v = some n') : n'.reg? = none := by
  unfold Node.setChild? at h
  split at h <;> cases h <;> rfl

theorem stepwise_advances : Stepwise Advances where
  refl := Advances.refl
  trans := Advances.trans
  labels _ _ _ h := ⟨⟨h.counted, h.named, h.stream⟩, Nat.le_refl _⟩
  counts _ _ _ h := ⟨⟨h.counted, h.named, h.stream⟩, Nat.le_refl _⟩
  links s id n slot v n' hn hset h := by
    refine ⟨⟨h.counted, ?_, h.stream⟩, Nat.le_refl _⟩
    intro m k reg hm hreg
    by_cases hmid : m = id
    · -- a node with children names no register
      subst hmid
      cases (Arena.get?_set_self (Arena.lt_size hn) n').symm.trans hm
      rw [reg?_of_setChild? hset] at hreg
      cases hreg
    · rw [Arena.get?_set_of_ne _ hmid] at hm
      exact h.named m k reg hm hreg

theorem index_fresh (s : Selection) : s.fresh.index = s.nextReg := rfl

namespace Ordered

variable {s : Selection} {id : NodeId} {o : Operand} {code : List Instr}

theorem known (h : s.Ordered) (ho : s.arena.operand? id = some o) : o.Known s.nextReg := by
  rcases Option.bind_eq_some_iff.1 ho with ⟨n, hn, hoperand⟩
  intro r hr
  exact h.named id n r hn ((reg?_of_operand? hoperand).trans hr)

/-- A register is issued, and code is emitted that introduces it. -/
theorem issuing (h : s.Ordered) (hcode : Introduces s.nextReg code (s.nextReg + 1)) :
    (s.issued.emitted code).Ordered ∧ (s.issued.emitted code).nextReg = s.nextReg + 1 := by
  have hnext : (s.issued.emitted code).nextReg = s.nextReg + 1 := Selection.nextReg_emitted _ _
  refine ⟨⟨?_, ?_, ?_⟩, hnext⟩
  · rw [hnext, Selection.vregs_emitted]
    exact congrArg Nat.succ h.counted
  · intro m n reg hm hreg
    rw [Selection.arena_emitted] at hm
    rw [hnext]
    exact Nat.lt_succ_of_lt (h.named m n reg hm hreg)
  · rw [Selection.stream_emitted, hnext]
    exact h.stream.append hcode

theorem appended (h : s.Ordered) {n : Node}
    (hn : ∀ reg, n.reg? = some reg → reg.index < s.nextReg) :
    (s.appended n).Ordered := by
  refine ⟨h.counted, ?_, h.stream⟩
  intro m n' reg hm hreg
  rw [Selection.appended, Arena.get?_push] at hm
  split at hm
  · cases hm
    exact hn reg hreg
  · exact h.named m n' reg hm hreg

end Ordered

end Selection

/-! ## Procedures -/

namespace X64

open SelectM

variable {s : Selection} {id : NodeId}

/-- What a run does to a state that is not in order does not matter. -/
theorem ensures_of_ordered {result : EStateM.Result Failure Selection NodeId}
    (h : s.Ordered → Ensures s.Advances (fun _ _ => True) result) :
    Ensures s.Advances (fun _ _ => True) result := by
  cases result with
  | ok v s' => exact ⟨fun hs => (h hs).1 hs, trivial⟩
  | error e s' => exact fun hs => h hs hs

theorem leaving_ensures (code : VirtualReg → List Instr)
    (hcode : s.Ordered → Introduces s.nextReg (code s.fresh) (s.nextReg + 1)) :
    Ensures s.Advances (fun _ _ => True)
      ((do
        let dst ← freshReg
        (code dst).forM emit
        appendReg dst : SelectM NodeId).run s) := by
  rw [run_leaving code s]
  refine ⟨fun hs => ?_, trivial⟩
  rcases hs.issuing (hcode hs) with ⟨hissued, hnext⟩
  refine ⟨hissued.appended ?_, ?_⟩
  · intro reg hreg
    cases hreg
    rw [hnext]
    exact Nat.lt_succ_self _
  · rw [Selection.nextReg_leaving]
    exact Nat.le_succ _

theorem append_ensures {n : Node}
    (hn : s.Ordered → ∀ reg, n.reg? = some reg → reg.index < s.nextReg) :
    Ensures s.Advances (fun _ _ => True) ((append n).run s) :=
  ⟨fun hs => ⟨hs.appended (hn hs), Nat.le_refl _⟩, trivial⟩

/-- An operand of the node is read, and the rest runs on the same state. -/
theorem operandAt_ensures_advances {f : Operand → SelectM NodeId} {slot : Nat}
    (hf : ∀ x, (s.Ordered → x.Known s.nextReg) →
      Ensures s.Advances (fun _ _ => True) ((f x).run s)) :
    Ensures s.Advances (fun _ _ => True) ((operandAt id slot >>= f).run s) := by
  refine (operandAt_ensures s id slot).read (.refl s) ?_
  rintro x ⟨c, hx⟩
  exact hf x fun hs => hs.known hx

theorem copy_respects : copy.Respects Selection.Advances := by
  intro r id s _
  rw [copy]
  refine (operand_ensures s id).read (.refl s) fun x hx => ?_
  exact leaving_ensures (fun dst => [.move (.vreg dst) x])
    fun hs => introduces_move rfl (hs.known hx)

theorem slot_respects : Emission.Respects Selection.Advances slot := by
  intro r id s _
  rw [slot]
  refine (node_ensures s id).read (.refl s) fun n _ => ?_
  cases n with
  | var v => exact append_ensures fun _ reg hreg => by cases hreg
  | _ => exact .refl s

theorem framePointer_respects : framePointer.Respects Selection.Advances := by
  intro r id s _
  exact leaving_ensures (fun dst => [.move (.vreg dst) (.fixed .rbp)])
    fun _ => introduces_move rfl (known_fixed _ _)

theorem addressOf_respects : addressOf.Respects Selection.Advances := by
  intro r id s _
  rw [addressOf]
  refine (node_ensures s id).read (.refl s) fun n _ => ?_
  cases n with
  | addrOf v =>
      exact leaving_ensures (fun dst => [.binary .lea (.vreg dst) (.mem (.frame v.offset))])
        fun _ => .defining (.inr (.inr rfl)) rfl (known_frame _ _) (.nil _)
  | _ => exact .refl s

theorem binary_respects : binary.Respects Selection.Advances := by
  intro r id s _
  rw [binary]
  refine (node_ensures s id).read (.refl s) fun n _ => ?_
  cases n with
  | binary op _ _ =>
      refine operandAt_ensures_advances fun x hx => operandAt_ensures_advances fun y hy => ?_
      exact leaving_ensures (fun dst => arithmetic op dst x y)
        fun hs => introduces_arithmetic s.index_fresh (hx hs) (hy hs) op
  | _ => exact .refl s

theorem unary_respects : unary.Respects Selection.Advances := by
  intro r id s _
  rw [unary]
  refine (node_ensures s id).read (.refl s) fun n _ => ?_
  cases n with
  | unary op _ =>
      refine operandAt_ensures_advances fun x hx => ?_
      have hleaving : ∀ op', Ensures s.Advances (fun _ _ => True)
          ((do
            let dst ← freshReg
            (inPlace op' dst x).forM emit
            appendReg dst : SelectM NodeId).run s) :=
        fun op' => leaving_ensures (fun dst => inPlace op' dst x)
          fun hs => introduces_inPlace s.index_fresh (hx hs) op'
      cases op with
      | neg => exact hleaving .neg
      | not => exact hleaving .not
      | logicalNot => exact hleaving .logicalNot
  | _ => exact .refl s

theorem compare_respects : compare.Respects Selection.Advances := by
  intro r id s _
  rw [compare]
  refine (node_ensures s id).read (.refl s) fun n _ => ?_
  cases n with
  | compare op _ _ =>
      refine operandAt_ensures_advances fun x hx => operandAt_ensures_advances fun y hy => ?_
      exact leaving_ensures (fun dst => comparison op.condition dst x y)
        fun hs => introduces_comparison s.index_fresh (hx hs) (hy hs) op.condition
  | _ => exact .refl s

theorem logical_respects : logical.Respects Selection.Advances := by
  intro r id s _
  rw [logical]
  refine (node_ensures s id).read (.refl s) fun n _ => ?_
  cases n with
  | logical op _ _ =>
      refine operandAt_ensures_advances fun x hx => operandAt_ensures_advances fun y hy => ?_
      refine ensures_of_ordered fun hs => ?_
      -- three registers are introduced, each by a sequence of its own
      rw [run_bind_of_ok (run_freshReg s), run_bind_of_ok (run_forM_emit _ _)]
      rcases hs.issuing (introduces_comparison s.index_fresh (hx hs) (known_imm _ 0) .ne) with
        ⟨hs₁, hnext₁⟩
      generalize s.issued.emitted _ = s₁ at hs₁ hnext₁ ⊢
      have hy₁ : y.Known s₁.nextReg := (hy hs).mono (by omega)
      rw [run_bind_of_ok (run_freshReg s₁), run_bind_of_ok (run_forM_emit _ _)]
      rcases hs₁.issuing (introduces_comparison s₁.index_fresh hy₁ (known_imm _ 0) .ne) with
        ⟨hs₂, hnext₂⟩
      generalize s₁.issued.emitted _ = s₂ at hs₂ hnext₂ ⊢
      have hleft : Operand.Known s₂.nextReg (.vreg s.fresh) :=
        known_vreg (by rw [s.index_fresh]; omega)
      have hright : Operand.Known (s₂.nextReg + 1) (.vreg s₁.fresh) :=
        known_vreg (by rw [s₁.index_fresh]; omega)
      have hlast : ∀ opcode, Ensures s₂.Advances (fun _ _ => True)
          ((do
            let dst ← freshReg
            emit (.move (.vreg dst) (.vreg s.fresh))
            emit (.binary opcode (.vreg dst) (.vreg s₁.fresh))
            appendReg dst : SelectM NodeId).run s₂) :=
        fun opcode => leaving_ensures (fun dst =>
          [.move (.vreg dst) (.vreg s.fresh), .binary opcode (.vreg dst) (.vreg s₁.fresh)])
          fun _ => .move rfl hleft (.binary (known_vreg (Nat.lt_succ_self _)) hright (.nil _))
      refine (hlast _).mono (fun s' hs' _ => ?_) fun _ _ _ h => h
      rcases hs' hs₂ with ⟨hordered, hle⟩
      exact ⟨hordered, by omega⟩
  | _ => exact .refl s

theorem inner_respects : inner.Respects Selection.Advances := by
  intro r id s _
  rw [inner]
  refine (child?_ensures s id 0).read (.refl s) fun c _ => ?_
  cases c with
  | some c => exact ⟨.refl s, trivial⟩
  | none => exact (kind_ensures s id).read (.refl s) fun _ _ => .refl s

theorem signExtend_respects : signExtend.Respects Selection.Advances := by
  intro r id s _
  rw [signExtend]
  refine operandAt_ensures_advances fun x hx => ?_
  exact leaving_ensures (fun dst => [.binary .movsx (.vreg dst) x])
    fun hs => .defining (.inr (.inl rfl)) rfl (hx hs) (.nil _)

theorem deref_respects : deref.Respects Selection.Advances := by
  intro r id s _
  rw [deref]
  refine operandAt_ensures_advances fun x hx => ?_
  cases x with
  | vreg base => exact append_ensures fun hs => hx hs
  | _ => exact .refl s

theorem derefFolded_respects : derefFolded.Respects Selection.Advances := by
  intro r id s _
  rw [derefFolded]
  refine (child?_ensures s id 0).read (.refl s) fun c _ => ?_
  cases c with
  | none => exact .refl s
  | some sum =>
      refine (node_ensures s sum).read (.refl s) fun n _ => ?_
      cases n with
      | binary op _ _ =>
          refine operandAt_ensures_advances fun x hx => operandAt_ensures_advances fun y hy => ?_
          split
          · split
            · exact append_ensures fun hs => hx hs
            · exact .refl s
          · exact .refl s
      | _ => exact .refl s

theorem store_respects : store.Respects Selection.Advances := by
  intro r id s _
  rw [store]
  refine operandAt_ensures_advances fun x hx => operandAt_ensures_advances fun y hy => ?_
  have hemit : s.Advances (s.emitted [.move x y]) := by
    intro hs
    refine ⟨⟨hs.counted, hs.named, ?_⟩, Nat.le_refl _⟩
    rw [Selection.stream_emitted]
    exact hs.stream.append (.binary (hx hs) (hy hs) (.nil _))
  have hrun : (emit (.move x y)).run s = .ok () (s.emitted [.move x y]) := rfl
  rw [run_bind_of_ok hrun]
  refine (child?_ensures _ id 1).read hemit fun c _ => ?_
  cases c with
  | some c => exact ⟨hemit, trivial⟩
  | none => exact hemit

theorem keep_respects : Emission.keep.Respects Selection.Advances :=
  fun _ _ s _ => ⟨.refl s, trivial⟩

/-- The values of arguments are selected one after the other; later ones leave the registers of the
earlier ones known. -/
theorem values_ensures {r : Reducer}
    (hselect : ∀ c x s, Ensures (Selection.Advances s) (fun _ _ => True) ((r.select c x).run s))
    (args : List NodeId) (hs : s.Ordered) :
    Ensures (fun s' => s'.Ordered ∧ s.nextReg ≤ s'.nextReg)
      (fun values s' => ∀ o ∈ values, o.Known s'.nextReg)
      ((args.mapM fun arg => do operand (← r.select arg .reg)).run s) := by
  induction args generalizing s with
  | nil => exact ⟨⟨hs, Nat.le_refl _⟩, nofun⟩
  | cons arg args ih =>
      rw [List.mapM_cons, bind_assoc]
      have hfirst := (hselect arg .reg s).mono (fun s₁ h => h hs) fun _ _ _ h => h
      refine hfirst.bind fun v s₁ hs₁ _ => ?_
      refine (operand_ensures s₁ v).read hs₁ fun o ho => ?_
      have hknown := hs₁.1.known ho
      have hrest := (ih hs₁.1).mono (fun s₂ h => And.intro h.1 (hs₁.2.trans h.2))
        fun values s₂ h hvalues => And.intro h.2 hvalues
      refine hrest.bind fun values s₂ hs₂ hvalues => ⟨hs₂, ?_⟩
      intro o' ho'
      rcases List.mem_cons.1 ho' with rfl | ho'
      · exact hknown.mono hvalues.1
      · exact hvalues.2 o' ho'

theorem call_respects : call.Respects Selection.Advances := by
  intro r id s hselect
  rw [call]
  refine (node_ensures s id).read (.refl s) fun n _ => ?_
  cases n with
  | call callee args =>
      refine ensures_of_ordered fun hs => ?_
      have hvalues : Ensures s.Advances (fun values s' => ∀ o ∈ values, o.Known s'.nextReg)
          ((args.mapM fun arg => do operand (← r.select arg .reg)).run s) :=
        (values_ensures hselect args hs).mono (fun s' h _ => h) fun values s' _ hknown => hknown
      refine Selection.stepwise_advances.bind hvalues fun values s₁ hknown => ?_
      exact leaving_ensures (fun dst => callSequence callee values dst)
        fun _ => introduces_callSequence callee hknown s₁.index_fresh
  | _ => exact .refl s

theorem respects_advances {r : Rule} (hr : r ∈ rules) : r.emit.Respects Selection.Advances := by
  rcases r with ⟨name, p, x, cost, emit⟩
  cases form hr with
  | literal | vreg | mem => exact keep_respects
  | wideLiteral | load => exact copy_respects
  | slot => exact slot_respects
  | framePointer => exact framePointer_respects
  | addressOf => exact addressOf_respects
  | unary => exact unary_respects
  | binary => exact binary_respects
  | compare => exact compare_respects
  | logical => exact logical_respects
  | signExtend => exact signExtend_respects
  | grouping => exact inner_respects
  | deref => exact deref_respects
  | derefFolded => exact derefFolded_respects
  | store => exact store_respects
  | call => exact call_respects

end X64

/-! ## Sessions -/

namespace Target

theorem Selects.advances {settings : Settings} {t : Target} (ht : Target.x64 settings = .ok t)
    {admitted : Arena → NodeId → Prop} {s s' : Selection} (h : t.Selects admitted s s') :
    s.Advances s' := by
  have hgrammar : t.grammar = X64.grammar := (built_of_build ht).1
  have hemit : ∀ r ∈ t.grammar.rules, r.emit.Respects Selection.Advances := by
    rw [hgrammar]
    exact fun r hr => X64.respects_advances hr
  induction h with
  | none => exact .refl s
  | next _ _ ih =>
      exact ih.trans (selectRoot_ensures Selection.stepwise_advances hemit _ _).final

/-- Every temporary is defined before it is used, in the order of issue.  Over an arena that names
no virtual registers, whatever is selected, in whatever order, and whether or not it is refused: the
stream mentions the registers that were issued and no others; the first instruction that mentions
one defines it; the first mentions come in the order of the registers; and so the intervals of the
stream list all of them in order.  The arena may have shared nodes, and even cycles. -/
theorem selects_introduces {settings : Settings} {t : Target} (ht : Target.x64 settings = .ok t)
    {arena : Arena} (hregs : ∀ m n, arena.get? m = some n → n.reg? = none) {s : Selection}
    (hs : t.Selects (fun _ _ => True) (t.start arena) s) :
    (∀ v, (∃ p, Stream.MentionsAt s.stream v p) ↔ v < s.stats.vregs) ∧
      (∀ v p, IsLeast {q | Stream.MentionsAt s.stream v q} p →
        ∃ i, s.stream[p]? = some i ∧ i.Defines v) ∧
      (∀ v w p q, v < w → IsLeast {q | Stream.MentionsAt s.stream v q} p →
        IsLeast {q | Stream.MentionsAt s.stream w q} q → p < q) ∧
      (liveIntervals s.stream).map LiveInterval.vreg = List.range s.stats.vregs := by
  have hstart : (t.start arena).Ordered := by
    refine ⟨rfl, ?_, .nil 0⟩
    intro m n reg hn hreg
    rw [hregs m n hn] at hreg
    cases hreg
  have hordered := (hs.advances ht hstart).1
  have hstream := hordered.stream
  rw [← hordered.counted] at hstream
  exact ⟨fun v => Stream.exists_mentionsAt_iff hstream,
    fun v p => Stream.defines_of_isLeast hstream,
    fun v w p q => Stream.isLeast_lt_isLeast hstream, Stream.map_vreg_liveIntervals hstream⟩

/-- A call `f(-fp, 5 = fp)` with its root at 4, which is refused at the second argument, and a sum
of the first argument with itself, with its root at 5. -/
def refusedCall : Arena :=
  ⟨#[.literal 5, .framePointer, .assign 0 1, .unary .neg 1, .call "f" [3, 2], .binary .add 3 3]⟩

theorem selects_introduces_refusedCall :
    (∀ m n, refusedCall.get? m = some n → n.reg? = none) ∧
      ∃ t s, Target.x64 {} = .ok t ∧
        t.Selects (fun _ _ => True) (t.start refusedCall) s ∧
        s.stats.trees = 1 ∧ (liveIntervals s.stream).map LiveInterval.vreg = [0, 1, 2, 3, 4] := by
  have hregs : ∀ m n, refusedCall.get? m = some n → n.reg? = none := by
    intro m n hn
    have hall : ∀ n ∈ refusedCall.nodes, n.reg? = none := by decide
    exact hall n (Array.mem_of_getElem? hn)
  have hcounts : ∃ t, Target.x64 {} = .ok t ∧
      (((t.selectRoot 5).final ((t.selectRoot 4).final (t.start refusedCall))).stats.trees,
        ((t.selectRoot 5).final ((t.selectRoot 4).final (t.start refusedCall))).stats.vregs) =
          (1, 5) :=
    ⟨_, rfl, by decide +kernel⟩
  rcases hcounts with ⟨t, ht, hcounts⟩
  rcases Prod.mk.inj hcounts with ⟨htrees, hvregs⟩
  have hs : t.Selects (fun _ _ => True) (t.start refusedCall)
      ((t.selectRoot 5).final ((t.selectRoot 4).final (t.start refusedCall))) :=
    .next (.next .none trivial) trivial
  refine ⟨hregs, t, _, ht, hs, htrees, ?_⟩
  rw [(selects_introduces ht hregs hs).2.2.2, hvregs]
  rfl

end Target
end Codegen
