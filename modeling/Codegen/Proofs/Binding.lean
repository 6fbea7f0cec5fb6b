import Codegen.Proofs.Spans
import Codegen.Proofs.X64Machine
import Mathlib.Data.List.Pairwise

/-!
# Binding — allocated code runs like the code it came from

Code over virtual registers runs on a file with one cell for each of them; allocated code runs on a
file of physical registers, where several virtual registers share a cell.  A cell is shared only by
registers whose spans do not meet, so at every position the two files agree on the registers that
were written before and are still to be read.

* `Stream.DefinesFirst`                   : every virtual register is written before it is read
* `Allocation.Separates`                  : registers whose spans meet are in different cells
* `Machine.Agrees`                        : the relation between the two files at a position
* `Machine.trace_allocate`                : both runs read the same values and leave the same worlds
-/

namespace Codegen

/-! ## Definitions before uses -/

/-- `i` gives `v` a value without reading it. -/
def Instr.Defines (i : Instr) (v : Nat) : Prop :=
  (i.opcode = .mov ∨ i.opcode = .movsx ∨ i.opcode = .lea) ∧
    (∃ r, i.dst = some (.vreg r) ∧ r.index = v) ∧
    ∀ o r, i.src = some o → o.reg? = some r → r.index ≠ v

instance (i : Instr) (v : Nat) : Decidable (i.Defines v) :=
  decidable_of_iff
    ((i.opcode = .mov ∨ i.opcode = .movsx ∨ i.opcode = .lea) ∧
      (∃ r ∈ i.dst.bind Operand.reg?, i.dst = some (.vreg r) ∧ r.index = v) ∧
      ∀ o ∈ i.src, ∀ r ∈ o.reg?, r.index ≠ v) <| by
    refine and_congr_right fun _ => and_congr ⟨?_, ?_⟩ ⟨?_, ?_⟩
    · rintro ⟨r, -, hr⟩
      exact ⟨r, hr⟩
    · rintro ⟨r, hr, hv⟩
      exact ⟨r, by rw [hr]; rfl, hr, hv⟩
    · intro h o r ho hr
      exact h o ho r hr
    · intro h o ho r hr
      exact h o r ho hr

namespace Stream

/-- The first instruction that mentions a virtual register gives it a value. -/
def DefinesFirst (s : Stream) : Prop :=
  ∀ p i v, s[p]? = some i → MentionsAt s v p → (∀ q < p, ¬ MentionsAt s v q) → i.Defines v

instance (s : Stream) : Decidable (DefinesFirst s) :=
  decidable_of_iff
    (∀ m ∈ mentions s, (∀ m' ∈ mentions s, m'.1 = m.1 → ¬ m'.2 < m.2) →
      ∀ i ∈ s[m.2]?, i.Defines m.1) <| by
    constructor
    · intro h p i v hi hmention hfirst
      refine h (v, p) (mem_mentions_iff.2 hmention) ?_ i hi
      rintro ⟨w, q⟩ hq rfl hlt
      exact hfirst q hlt (mem_mentions_iff.1 hq)
    · rintro h ⟨v, p⟩ hmention hfirst i hi
      refine h p i v hi (mem_mentions_iff.1 hmention) ?_
      intro q hlt hq
      exact hfirst (v, q) (mem_mentions_iff.2 hq) rfl hlt

/-- Position `p` lies between the first and the last mention of `v`. -/
def SpannedAt (s : Stream) (v p : Nat) : Prop :=
  (∃ q ≤ p, MentionsAt s v q) ∧ ∃ q, p ≤ q ∧ MentionsAt s v q

theorem SpannedAt.of_mentionsAt {s : Stream} {v p : Nat} (h : MentionsAt s v p) :
    SpannedAt s v p :=
  ⟨⟨p, Nat.le_refl p, h⟩, ⟨p, Nat.le_refl p, h⟩⟩

theorem SpannedAt.contains {s : Stream} {a : LiveInterval} {p : Nat}
    (ha : a ∈ liveIntervals s) (h : SpannedAt s a.vreg p) : a.start ≤ p ∧ p ≤ a.stop := by
  rcases liveIntervals_exact ha with ⟨hfirst, hlast⟩
  rcases h with ⟨⟨q, hq, hmention⟩, q', hq', hmention'⟩
  exact ⟨(hfirst.2 hmention).trans hq, hq'.trans (hlast.2 hmention')⟩

end Stream

/-! ## What an allocation guarantees -/

namespace Allocation

/-- Every mentioned register has a cell, and registers whose spans meet have different ones. -/
structure Separates (a : Allocation) (s : Stream) : Prop where
  bound : ∀ v p, Stream.MentionsAt s v p → ∃ reg, a.reg? v = some reg
  apart : ∀ v w p, v ≠ w → Stream.SpannedAt s v p → Stream.SpannedAt s w p →
    a.reg? v ≠ a.reg? w

end Allocation

theorem allocate_separates {settings : Settings} {s bound : Stream} {a : Allocation}
    {tr tr' : Trace} (h : (allocate settings s).run tr = .ok (a, bound) tr') : a.Separates s := by
  rcases (allocate_eq_ok_iff.1 ⟨tr', h⟩).2 with ⟨scan, tr₁, hscan, rfl, -⟩
  rcases Scan.run_reports hscan with ⟨done, reached, hreports, hvalid⟩
  refine ⟨?_, ?_⟩
  · intro v p hv
    rcases hreports.exists_placement hv with ⟨q, -, -, -, -, hreg⟩
    exact ⟨q.reg, hreg⟩
  · intro v w p hne hv hw heq
    rcases hv.1 with ⟨pv, -, hpv⟩
    rcases hw.1 with ⟨pw, -, hpw⟩
    rcases hreports.exists_placement hpv with ⟨x, hx, hxi, rfl, -, hxreg⟩
    rcases hreports.exists_placement hpw with ⟨y, hy, hyi, rfl, -, hyreg⟩
    have hxspan := hv.contains hxi
    have hyspan := hw.contains hyi
    have hreg : x.reg = y.reg := by
      rw [hxreg, hyreg] at heq
      exact Option.some.inj heq
    have hapart : done.Pairwise fun p q => p.reg = q.reg →
        p.interval.stop < q.interval.start ∨ q.interval.stop < p.interval.start :=
      hvalid.apart.imp fun h hreg => .inl (h hreg)
    have hsymm : Std.Symm fun p q : Placement => p.reg = q.reg →
        p.interval.stop < q.interval.start ∨ q.interval.stop < p.interval.start :=
      ⟨fun p q h hreg => (h hreg.symm).symm⟩
    have hxy : x ≠ y := fun h => hne (by rw [h])
    rcases hapart.forall hx hy hxy hreg with hlt | hlt <;> omega

/-! ## Reading through an allocation -/

namespace Machine

variable {F E : Type}

/-- Where a value goes that is meant for the cell of a virtual register. -/
def Sink.allocated (a : Allocation) : Sink → Sink
  | .cell v => .cell ((a.reg? v).getD v)
  | k => k

/-- Nothing but the file depends on where a value for a virtual register goes. -/
theorem world_put_allocated (a : Allocation) (f g : Nat → Word) (w : World F E) (v : Word)
    (k : Sink) :
    ((⟨g, w⟩ : State F E).put v (k.allocated a)).world = ((⟨f, w⟩ : State F E).put v k).world := by
  cases k <;> rfl

/-- The file is as it was where the value goes elsewhere. -/
theorem file_put_of_ne_cell {k : Sink} (hk : ∀ c, k ≠ .cell c) (st : State F E) (v : Word) :
    (st.put v k).file = st.file := by
  cases k with
  | cell c => exact absurd rfl (hk c)
  | memory p => rfl
  | fixed r => rfl
  | nowhere => rfl

theorem Sink.allocated_ne_cell {a : Allocation} {k : Sink} (hk : ∀ c, k ≠ .cell c) (c : Nat) :
    k.allocated a ≠ .cell c := by
  cases k with
  | cell c' => exact absurd rfl (hk c')
  | _ => exact hk c

/-- Only a register as destination keeps its value in a cell. -/
theorem dstSink?_ne_cell {i : Instr} {k : Sink} {st : State F E}
    (hdst : ∀ r, i.dst ≠ some (.vreg r)) (hk : dstSink? byIndex st i = some k) (c : Nat) :
    k ≠ .cell c := by
  rintro rfl
  cases hd : i.dst with
  | none => simp [dstSink?, hd] at hk
  | some o =>
      cases o with
      | vreg r => exact hdst r hd
      | _ => simp [dstSink?, hd, sink?] at hk

theorem byPhys_bind {a : Allocation} {r : VirtualReg} {reg : Nat}
    (h : a.reg? r.index = some reg) : byPhys (a.bind r) = some reg := by
  simp [byPhys, Allocation.bind, h]

/-- The virtual register that `o` mentions has the same value in both files. -/
def SameValue (a : Allocation) (f g : Nat → Word) (o : Operand) : Prop :=
  ∀ r, o.reg? = some r → ∃ reg, a.reg? r.index = some reg ∧ f r.index = g reg

theorem address?_allocated {a : Allocation} {f g : Nat → Word} {w : World F E} {p : Address}
    (h : SameValue a f g (.mem p)) :
    ∃ q, Operand.mapReg a.bind (.mem p) = .mem q ∧
      address? byPhys ⟨g, w⟩ q = address? byIndex ⟨f, w⟩ p := by
  rcases p with ⟨base, disp⟩
  cases base with
  | absolute => exact ⟨⟨.absolute, disp⟩, rfl, rfl⟩
  | framePointer => exact ⟨⟨.framePointer, disp⟩, rfl, rfl⟩
  | reg r =>
      rcases h r rfl with ⟨reg, hreg, hval⟩
      refine ⟨⟨.reg (a.bind r), disp⟩, rfl, ?_⟩
      simp [address?, byPhys_bind hreg, byIndex, hval]

theorem value?_allocated {a : Allocation} {f g : Nat → Word} {w : World F E} {o : Operand}
    (h : SameValue a f g o) :
    value? byPhys ⟨g, w⟩ (o.mapReg a.bind) = value? byIndex ⟨f, w⟩ o := by
  cases o with
  | vreg r =>
      rcases h r rfl with ⟨reg, hreg, hval⟩
      simp [value?, Operand.mapReg, byPhys_bind hreg, byIndex, hval]
  | mem p =>
      rcases address?_allocated (w := w) h with ⟨q, hq, haddr⟩
      rw [hq]
      simp [value?, haddr]
  | imm v => rfl
  | fixed r => rfl
  | symbol name => rfl

theorem sink?_allocated {a : Allocation} {f g : Nat → Word} {w : World F E} {o : Operand}
    (hbound : ∀ r, o.reg? = some r → ∃ reg, a.reg? r.index = some reg)
    (h : (∀ r, o ≠ .vreg r) → SameValue a f g o) :
    sink? byPhys ⟨g, w⟩ (o.mapReg a.bind) = (sink? byIndex ⟨f, w⟩ o).map (Sink.allocated a) := by
  cases o with
  | vreg r =>
      rcases hbound r rfl with ⟨reg, hreg⟩
      simp [sink?, Operand.mapReg, byPhys_bind hreg, byIndex, Sink.allocated, hreg]
  | mem p =>
      rcases address?_allocated (w := w) (h (by simp)) with ⟨q, hq, haddr⟩
      rw [hq]
      simp only [sink?, haddr, Option.map_map]
      rfl
  | imm v => rfl
  | fixed r => rfl
  | symbol name => rfl

/-- An instruction reads the same before and after allocation if the files agree on the registers
it reads. -/
theorem access?_allocated {a : Allocation} {f g : Nat → Word} {w : World F E} {i : Instr}
    (hsrc : ∀ o, i.src = some o → SameValue a f g o)
    (hbound : ∀ o r, i.dst = some o → o.reg? = some r → ∃ reg, a.reg? r.index = some reg)
    (hdst : ∀ o, i.dst = some o → i.opcode.readsDst = true ∨ (∀ r, o ≠ .vreg r) →
      SameValue a f g o) :
    access? byPhys ⟨g, w⟩ (i.mapRegs a.bind) =
      (access? byIndex ⟨f, w⟩ i).map fun (r, k) => (r, k.allocated a) := by
  -- the three parts of an access: the source, where the result goes, and what was there
  have hsrcs : srcValue? byPhys ⟨g, w⟩ (i.mapRegs a.bind) = srcValue? byIndex ⟨f, w⟩ i := by
    unfold srcValue? Instr.mapRegs
    cases hs : i.src with
    | none => rfl
    | some o => simp [value?_allocated (hsrc o hs)]
  have hsinks : dstSink? byPhys ⟨g, w⟩ (i.mapRegs a.bind) =
      (dstSink? byIndex ⟨f, w⟩ i).map (Sink.allocated a) := by
    unfold dstSink? Instr.mapRegs
    cases hd : i.dst with
    | none => rfl
    | some o =>
        exact sink?_allocated (fun r hr => hbound o r hd hr) fun hne => hdst o hd (.inr hne)
  have hdsts : dstValue? byPhys ⟨g, w⟩ (i.mapRegs a.bind) = dstValue? byIndex ⟨f, w⟩ i := by
    unfold dstValue? Instr.mapRegs
    split
    · rename_i hread
      cases hd : i.dst with
      | none => rfl
      | some o => simp [value?_allocated (hdst o hd (.inl hread))]
    · rfl
  have haddress : ∀ k : Sink, (k.allocated a).address? = k.address? := by
    intro k
    cases k <;> rfl
  unfold access?
  rw [hsrcs, hsinks, hdsts]
  cases srcValue? byIndex ⟨f, w⟩ i with
  | none => rfl
  | some src =>
      cases dstSink? byIndex ⟨f, w⟩ i with
      | none => rfl
      | some k =>
          cases dstValue? byIndex ⟨f, w⟩ i with
          | none => rfl
          | some dst => simp [haddress]

/-! ## The simulation -/

/-- Before position `p`, the two files agree on every register that was mentioned before and will
be mentioned again. -/
def Agrees (a : Allocation) (s : Stream) (p : Nat) (f g : Nat → Word) : Prop :=
  ∀ v reg, (∃ q < p, Stream.MentionsAt s v q) → (∃ q, p ≤ q ∧ Stream.MentionsAt s v q) →
    a.reg? v = some reg → f v = g reg

section Simulation

variable {a : Allocation} {s : Stream} {p : Nat} {i : Instr} {f g : Nat → Word}

theorem mentionsAt_dst (hi : s[p]? = some i) {o : Operand} {r : VirtualReg}
    (ho : i.dst = some o) (hr : o.reg? = some r) : Stream.MentionsAt s r.index p :=
  ⟨i, hi, r, by simp [Instr.regs, Instr.operands, ho, hr], rfl⟩

theorem mentionsAt_src (hi : s[p]? = some i) {o : Operand} {r : VirtualReg}
    (ho : i.src = some o) (hr : o.reg? = some r) : Stream.MentionsAt s r.index p :=
  ⟨i, hi, r, by
    refine List.mem_filterMap.2 ⟨o, ?_, hr⟩
    simp [Instr.operands, ho], rfl⟩

theorem mentioned_or_defines (hdef : Stream.DefinesFirst s) (hi : s[p]? = some i) {v : Nat}
    (hv : Stream.MentionsAt s v p) : (∃ q < p, Stream.MentionsAt s v q) ∨ i.Defines v := by
  by_cases hbefore : ∃ q < p, Stream.MentionsAt s v q
  · exact .inl hbefore
  · refine .inr (hdef p i v hi hv ?_)
    intro q hq hmention
    exact hbefore ⟨q, hq, hmention⟩

theorem readsDst_of_defines {v : Nat} (h : i.Defines v) : i.opcode.readsDst = false := by
  rcases h.1 with h | h | h <;> rw [h] <;> rfl

theorem writesDst_of_defines {v : Nat} (h : i.Defines v) : i.opcode.writesDst = true := by
  rcases h.1 with h | h | h <;> rw [h] <;> rfl

/-- The agreement before position `p` reaches over it, for registers that are not defined there. -/
theorem Agrees.carry (h : Agrees a s p f g) (hdef : Stream.DefinesFirst s) (hi : s[p]? = some i)
    {x reg : Nat} (hbefore : ∃ q < p + 1, Stream.MentionsAt s x q)
    (hafter : ∃ q, p + 1 ≤ q ∧ Stream.MentionsAt s x q) (hreg : a.reg? x = some reg)
    (hnew : ¬ i.Defines x) : f x = g reg := by
  rcases hbefore with ⟨q, hq, hmention⟩
  rcases hafter with ⟨q', hq', hmention'⟩
  refine h x reg ?_ ⟨q', by omega, hmention'⟩ hreg
  by_cases hlt : q < p
  · exact ⟨q, hlt, hmention⟩
  · have hqp : q = p := by omega
    exact (mentioned_or_defines hdef hi (hqp ▸ hmention)).resolve_right hnew

variable (hsep : a.Separates s) (hdef : Stream.DefinesFirst s) (hi : s[p]? = some i)
include hsep hdef hi

theorem Agrees.sameValue (h : Agrees a s p f g) {r : VirtualReg}
    (hr : Stream.MentionsAt s r.index p) (hnew : ¬ i.Defines r.index) :
    ∃ reg, a.reg? r.index = some reg ∧ f r.index = g reg := by
  rcases hsep.bound _ _ hr with ⟨reg, hreg⟩
  rcases mentioned_or_defines hdef hi hr with hbefore | hdefines
  · exact ⟨reg, hreg, h _ reg hbefore ⟨p, Nat.le_refl p, hr⟩ hreg⟩
  · exact absurd hdefines hnew

/-- At its position, an instruction reads the same from both files. -/
theorem Agrees.access? {w : World F E} (h : Agrees a s p f g) :
    Machine.access? byPhys ⟨g, w⟩ (i.mapRegs a.bind) =
      (Machine.access? byIndex ⟨f, w⟩ i).map fun (r, k) => (r, k.allocated a) := by
  refine access?_allocated ?_ ?_ ?_
  · intro o ho r hr
    refine h.sameValue hsep hdef hi (mentionsAt_src hi ho hr) ?_
    intro hdefines
    exact hdefines.2.2 o r ho hr rfl
  · intro o r ho hr
    exact hsep.bound _ _ (mentionsAt_dst hi ho hr)
  · intro o ho hread r hr
    refine h.sameValue hsep hdef hi (mentionsAt_dst hi ho hr) ?_
    intro hdefines
    rcases hdefines.2.1 with ⟨r', hr', -⟩
    have hor : o = .vreg r' := Option.some.inj (ho.symm.trans hr')
    rcases hread with hread | hread
    · rw [readsDst_of_defines hdefines] at hread
      cases hread
    · exact hread r' hor

/-- Writing a register through the allocation keeps the files in agreement. -/
theorem Agrees.put_cell (h : Agrees a s p f g) {r : VirtualReg} {cell : Nat}
    (hdst : i.dst = some (.vreg r)) (hcell : a.reg? r.index = some cell) (v : Word) :
    Agrees a s (p + 1) (Function.update f r.index v) (Function.update g cell v) := by
  intro x reg hbefore hafter hreg
  have hmention : Stream.MentionsAt s r.index p := mentionsAt_dst hi hdst rfl
  by_cases hx : x = r.index
  · subst hx
    have heq : cell = reg := Option.some.inj (hcell.symm.trans hreg)
    rw [heq, Function.update_self, Function.update_self]
  · -- the cell written is not that of `x`, for both registers are live here
    have hspan : Stream.SpannedAt s x p := by
      rcases hbefore with ⟨q, hq, hmention⟩
      rcases hafter with ⟨q', hq', hmention'⟩
      exact ⟨⟨q, by omega, hmention⟩, ⟨q', by omega, hmention'⟩⟩
    have hne : reg ≠ cell := by
      intro heq
      refine hsep.apart x r.index p hx hspan (.of_mentionsAt hmention) ?_
      rw [hreg, hcell, heq]
    rw [Function.update_of_ne hx, Function.update_of_ne hne]
    refine h.carry hdef hi hbefore hafter hreg fun hdefines => ?_
    rcases hdefines.2.1 with ⟨r', hr', hindex⟩
    cases hdst.symm.trans hr'
    exact hx hindex.symm

/-- Writing the same value through the allocation keeps the files in agreement. -/
theorem Agrees.put {w : World F E} {k : Sink} (h : Agrees a s p f g) (v : Word)
    (hk : dstSink? byIndex (⟨f, w⟩ : State F E) i = some k) (w' : World F E) :
    Agrees a s (p + 1)
      ((⟨f, w'⟩ : State F E).put v (if i.opcode.writesDst then k else .nowhere)).file
      ((⟨g, w'⟩ : State F E).put v
        (if i.opcode.writesDst then k.allocated a else .nowhere)).file := by
  by_cases hcell : i.opcode.writesDst = true ∧ ∃ r, i.dst = some (.vreg r)
  · rcases hcell with ⟨hwrites, r, hr⟩
    rcases hsep.bound _ _ (mentionsAt_dst hi hr rfl) with ⟨cell, hcell⟩
    have hkcell : k = .cell r.index := by
      simpa [dstSink?, hr, sink?, byIndex, eq_comm] using hk
    simp only [hwrites, if_true, hkcell, Sink.allocated, hcell, Option.getD_some, State.put]
    exact h.put_cell hsep hdef hi hr hcell v
  · -- no register is written, and none is defined either
    have hkeep : Agrees a s (p + 1) f g := by
      intro x reg hbefore hafter hreg
      refine h.carry hdef hi hbefore hafter hreg fun hdefines => ?_
      rcases hdefines.2.1 with ⟨r, hr, -⟩
      exact hcell ⟨writesDst_of_defines hdefines, r, hr⟩
    by_cases hwrites : i.opcode.writesDst = true
    · have hnot := dstSink?_ne_cell (fun r hr => hcell ⟨hwrites, r, hr⟩) hk
      rw [if_pos hwrites, if_pos hwrites, file_put_of_ne_cell hnot,
        file_put_of_ne_cell (Sink.allocated_ne_cell hnot)]
      exact hkeep
    · rw [if_neg hwrites, if_neg hwrites]
      exact hkeep

/-- One instruction ends the same way on both files, or in worlds that are equal and files that
agree. -/
theorem Agrees.step {w : World F E} (I : Interpretation F E) (h : Agrees a s p f g) :
    (Machine.step I byIndex i ⟨f, w⟩ = none ∧
        Machine.step I byPhys (i.mapRegs a.bind) ⟨g, w⟩ = none) ∨
      ∃ t t', Machine.step I byIndex i ⟨f, w⟩ = some t ∧
        Machine.step I byPhys (i.mapRegs a.bind) ⟨g, w⟩ = some t' ∧ t'.world = t.world ∧
        Agrees a s (p + 1) t.file t'.file := by
  have haccess := h.access? (w := w) hsep hdef hi
  have hopcode : (i.mapRegs a.bind).opcode = i.opcode := rfl
  unfold Machine.step
  rw [haccess, hopcode]
  cases hread : Machine.access? byIndex (⟨f, w⟩ : State F E) i with
  | none => exact .inl ⟨rfl, rfl⟩
  | some found =>
      -- both read the same, so the interpretation cannot tell them apart
      rcases found with ⟨r, k⟩
      cases hrun : I.run i.opcode r.dst r.src w with
      | none => simp [hrun]
      | some result =>
          rcases result with ⟨v, w'⟩
          have hk : dstSink? byIndex (⟨f, w⟩ : State F E) i = some k := by
            simp only [Machine.access?, Option.bind_eq_bind, Option.bind_eq_some_iff] at hread
            rcases hread with ⟨_, _, k', hk', _, _, heq⟩
            cases heq
            exact hk'
          have hnext := h.put hsep hdef hi v hk w'
          refine .inr ⟨_, _, ?_, ?_, ?_, hnext⟩
          · simp only [Option.bind_eq_bind, Option.bind_some, hrun]
            rfl
          · simp only [Option.map_some, Option.bind_eq_bind, Option.bind_some, hrun]
            rfl
          · split
            · exact world_put_allocated a f g w' v k
            · rfl

end Simulation

theorem trace_allocated {a : Allocation} {s : Stream} (I : Interpretation F E)
    (hsep : a.Separates s) (hdef : Stream.DefinesFirst s) {code : List Instr} {p : Nat}
    (hcode : s.toList.drop p = code) {f g : Nat → Word} (w : World F E)
    (h : Agrees a s p f g) :
    trace I byPhys (code.map (·.mapRegs a.bind)) ⟨g, w⟩ = trace I byIndex code ⟨f, w⟩ := by
  -- on the code that is left, with the position it starts at
  induction code generalizing p f g w with
  | nil => rfl
  | cons i rest ih =>
      have hi : s[p]? = some i := by
        rw [← Array.getElem?_toList, ← List.head?_drop, hcode]
        rfl
      have hrest : s.toList.drop (p + 1) = rest := by
        rw [← List.tail_drop, hcode]
        rfl
      have hread : (access? byPhys ⟨g, w⟩ (i.mapRegs a.bind)).map Prod.fst =
          (access? byIndex ⟨f, w⟩ i).map Prod.fst := by
        rw [h.access? hsep hdef hi, Option.map_map]
        rfl
      unfold trace
      simp only [List.map_cons, hread]
      rcases h.step hsep hdef hi I (w := w) with ⟨hf, hg⟩ | ⟨t, t', hf, hg, hworld, hnext⟩
      · rw [hf, hg]
      · rcases t' with ⟨g', w'⟩
        rw [hf, hg]
        subst hworld
        simp only [ih hrest t.world hnext, Option.map_some]

/-- Allocation keeps the meaning of a stream: whatever the opcodes compute, and whatever the two
register files hold at first, both runs read the same values and leave the same worlds. -/
theorem trace_allocate {settings : Settings} {s bound : Stream} {a : Allocation} {tr tr' : Trace}
    (hdef : Stream.DefinesFirst s) (h : (allocate settings s).run tr = .ok (a, bound) tr')
    (I : Interpretation F E) (file phys : Nat → Word) (w : World F E) :
    trace I byPhys bound.toList ⟨phys, w⟩ = trace I byIndex s.toList ⟨file, w⟩ := by
  have hsep := allocate_separates h
  rcases (allocate_eq_ok_iff.1 ⟨tr', h⟩).2 with ⟨scan, tr₁, -, -, rfl⟩
  rw [Array.toList_map]
  refine trace_allocated I hsep hdef (List.drop_zero) w ?_
  rintro v reg ⟨q, hq, -⟩
  exact absurd hq (Nat.not_lt_zero q)

/-- Three virtual registers that two physical ones suffice for, one of them as a base. -/
def threeInTwo : Stream :=
  #[ .move (.vreg ⟨0, none⟩) (.imm 5),
     .move (.vreg ⟨1, none⟩) (.mem ⟨.reg ⟨0, none⟩, 8⟩),
     .binary .add (.vreg ⟨1, none⟩) (.vreg ⟨0, none⟩),
     .move (.mem (.frame (-8))) (.vreg ⟨1, none⟩),
     .binary .lea (.vreg ⟨2, none⟩) (.mem (.frame (-8))),
     .move (.fixed .rax) (.vreg ⟨2, none⟩) ]

theorem trace_allocate_threeInTwo :
    Stream.DefinesFirst threeInTwo ∧
      ∃ a bound tr', (allocate { registers := 2 } threeInTwo).run #[] = .ok (a, bound) tr' ∧
        a.assignments = [(0, 0), (1, 1), (2, 0)] ∧
        trace (X64.interpretation id) byPhys bound.toList
            ⟨fun _ => 7, ⟨fun p => p, fun _ => 64, none, ()⟩⟩ =
          trace (X64.interpretation id) byIndex threeInTwo.toList
            ⟨fun _ => 0, ⟨fun p => p, fun _ => 64, none, ()⟩⟩ := by
  have hdef : Stream.DefinesFirst threeInTwo := by decide
  have hassigned : (match (allocate { registers := 2 } threeInTwo).run #[] with
      | .ok (a, _) _ => a.assignments
      | .error _ _ => []) = [(0, 0), (1, 1), (2, 0)] := by decide
  cases h : (allocate { registers := 2 } threeInTwo).run #[] with
  | ok r tr' =>
      rw [h] at hassigned
      exact ⟨hdef, r.1, r.2, tr', rfl, hassigned, trace_allocate hdef h _ _ _ _⟩
  | error e tr' =>
      rw [h] at hassigned
      cases hassigned

end Machine

end Codegen
