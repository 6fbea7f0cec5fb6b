import Codegen.Proofs.Scan

/-!
# Spans — binding inside spans reaches every mention

An allocation pairs the intervals of a stream, in their order, with the registers that the scan
handed out, in its order, and binds each register inside the span of the interval it is paired with.
Both orders are the same, and a span holds every mention of its register, so this binds all mentions
in the stream, and nothing besides.

* `Stream.getElem?_bindSpans`    : what the spans together do at one position
* `Allocation.Reports.bindSpans` : the spans of a stream leave no mention out
* `run_allocateInPlace`          : an allocation in terms of the scan
* `allocateInPlace_binds`        : every mention is bound, and the rest of the stream is as it was
-/

namespace Codegen

/-! ## Instructions with their registers replaced -/

namespace Instr

theorem mapRegs_congr {f g : VirtualReg → VirtualReg} {i : Instr} (h : ∀ r ∈ i.regs, f r = g r) :
    i.mapRegs f = i.mapRegs g := by
  have hoperand : ∀ o ∈ i.operands, o.mapReg f = o.mapReg g := by
    intro o ho
    have hreg : ∀ r, o.reg? = some r → f r = g r := fun r hr =>
      h r (List.mem_filterMap.2 ⟨o, ho, hr⟩)
    cases o with
    | vreg r => simp [Operand.mapReg, hreg r rfl]
    | mem a =>
        rcases a with ⟨base, disp⟩
        cases base with
        | reg r => simp [Operand.mapReg, hreg r rfl]
        | _ => rfl
    | _ => rfl
  have hdst : i.dst.map (Operand.mapReg f) = i.dst.map (Operand.mapReg g) :=
    Option.map_congr fun o ho => hoperand o (by simp [operands, ho])
  have hsrc : i.src.map (Operand.mapReg f) = i.src.map (Operand.mapReg g) :=
    Option.map_congr fun o ho => hoperand o (by simp [operands, ho])
  rw [mapRegs, mapRegs, hdst, hsrc]

theorem mapRegs_mapRegs (f g : VirtualReg → VirtualReg) (i : Instr) :
    (i.mapRegs f).mapRegs g = i.mapRegs fun r => g (f r) := by
  have hoperand : Operand.mapReg g ∘ Operand.mapReg f = Operand.mapReg fun r => g (f r) := by
    funext o
    cases o with
    | mem a =>
        rcases a with ⟨base, disp⟩
        cases base <;> rfl
    | _ => rfl
  simp only [mapRegs, Option.map_map, hoperand]

theorem mapRegs_id (i : Instr) : i.mapRegs (fun r => r) = i := by
  have hoperand : Operand.mapReg (fun r => r) = id := by
    funext o
    cases o with
    | mem a =>
        rcases a with ⟨base, disp⟩
        cases base <;> rfl
    | _ => rfl
  simp only [mapRegs, hoperand, Option.map_id, id]

end Instr

/-! ## Binding at one position -/

namespace Stream

theorem getElem?_foldl_modify (f : Instr → Instr) {positions : List Nat} (h : positions.Nodup)
    (s : Stream) (p : Nat) :
    (positions.foldl (fun s position => s.modify position f) s)[p]? =
      if p ∈ positions then s[p]?.map f else s[p]? := by
  induction positions generalizing s with
  | nil => simp
  | cons q rest ih =>
      rw [List.nodup_cons] at h
      rw [List.foldl_cons, ih h.2, Array.getElem?_modify]
      by_cases hq : q = p
      · -- modified here, and not again
        subst hq
        simp [h.1]
      · simp [hq, Ne.symm hq]

theorem getElem?_bindSpan (s : Stream) (i : LiveInterval) (vreg reg p : Nat) :
    (s.bindSpan i vreg reg)[p]? =
      s[p]?.map (·.mapRegs fun r => if i.contains p then r.assign vreg reg else r) := by
  have hspan : p ∈ List.range' i.start (i.stop + 1 - i.start) ↔ i.contains p = true := by
    rw [List.mem_range'_1, LiveInterval.contains_iff]
    omega
  rw [bindSpan, getElem?_foldl_modify _ (List.nodup_range' ..)]
  simp only [hspan]
  split
  · rfl
  · simp [Instr.mapRegs_id]

/-- What the spans make of a register that is mentioned at position `p`. -/
def bindAt (spans : List (LiveInterval × Nat × Nat)) (p : Nat) (r : VirtualReg) : VirtualReg :=
  spans.foldl (fun r span => if span.1.contains p then r.assign span.2.1 span.2.2 else r) r

theorem getElem?_bindSpans (s : Stream) (spans : List (LiveInterval × Nat × Nat)) (p : Nat) :
    (s.bindSpans spans)[p]? = s[p]?.map (·.mapRegs (bindAt spans p)) := by
  induction spans generalizing s with
  | nil =>
      have hnone : bindAt [] p = fun r => r := rfl
      simp [bindSpans, hnone, Instr.mapRegs_id]
  | cons span rest ih =>
      calc (s.bindSpans (span :: rest))[p]?
          = ((s.bindSpan span.1 span.2.1 span.2.2).bindSpans rest)[p]? := rfl
        _ = (s.bindSpan span.1 span.2.1 span.2.2)[p]?.map (·.mapRegs (bindAt rest p)) := ih _
        _ = s[p]?.map (·.mapRegs (bindAt (span :: rest) p)) := by
            rw [getElem?_bindSpan, Option.map_map]
            exact congrFun (congrArg _ (funext fun i => Instr.mapRegs_mapRegs _ _ i)) _

theorem bindAt_of_forall_ne {spans : List (LiveInterval × Nat × Nat)} {r : VirtualReg}
    (h : ∀ span ∈ spans, span.2.1 ≠ r.index) (p : Nat) : bindAt spans p r = r := by
  induction spans with
  | nil => rfl
  | cons span rest ih =>
      have hfirst : r.assign span.2.1 span.2.2 = r :=
        if_neg (Ne.symm (h span List.mem_cons_self))
      rw [bindAt, List.foldl_cons, hfirst, ite_self]
      exact ih fun span hspan => h span (List.mem_cons_of_mem _ hspan)

/-- Of spans for different registers, the one for `r` decides. -/
theorem bindAt_of_mem {spans : List (LiveInterval × Nat × Nat)} {i : LiveInterval}
    {r : VirtualReg} {reg p : Nat} (hnodup : (spans.map (·.2.1)).Nodup)
    (hmem : (i, r.index, reg) ∈ spans) (hp : i.contains p = true) :
    bindAt spans p r = { r with phys := some reg } := by
  induction spans with
  | nil => cases hmem
  | cons span rest ih =>
      rw [List.map_cons, List.nodup_cons] at hnodup
      rw [bindAt, List.foldl_cons]
      rcases List.mem_cons.1 hmem with rfl | hrest
      · -- the spans that follow are for other registers
        rw [if_pos hp, VirtualReg.assign, if_pos rfl]
        refine bindAt_of_forall_ne ?_ p
        intro span hspan heq
        exact hnodup.1 (List.mem_map.2 ⟨span, hspan, heq⟩)
      · have hne : r.index ≠ span.2.1 := by
          intro heq
          exact hnodup.1 (List.mem_map.2 ⟨_, hrest, heq⟩)
        rw [VirtualReg.assign, if_neg hne, ite_self]
        exact ih hnodup.2 hrest

end Stream

/-! ## Reports of a scan -/

/-- Binds a virtual register to the physical one it was assigned, if any. -/
def Allocation.bind (a : Allocation) (r : VirtualReg) : VirtualReg :=
  match a.reg? r.index with
  | some reg => { r with phys := some reg }
  | none => r

theorem Allocation.bind_of_reg? {a : Allocation} {r : VirtualReg} {reg : Nat}
    (h : a.reg? r.index = some reg) : a.bind r = { r with phys := some reg } := by
  rw [bind, h]

theorem Allocation.unbound_bind (a : Allocation) (r : VirtualReg) :
    (a.bind r).unbound = r.unbound := by
  unfold bind
  split <;> rfl

theorem lookup_map_placement {done : List Placement} {p : Placement}
    (hnodup : (done.map (·.interval.vreg)).Nodup) (hp : p ∈ done) :
    (done.map fun p => (p.interval.vreg, p.reg)).lookup p.interval.vreg = some p.reg := by
  induction done with
  | nil => cases hp
  | cons q rest ih =>
      rw [List.map_cons, List.nodup_cons] at hnodup
      rw [List.map_cons, List.lookup_cons]
      rcases List.mem_cons.1 hp with rfl | hp
      · simp
      · have hne : p.interval.vreg ≠ q.interval.vreg := by
          intro heq
          exact hnodup.1 (heq ▸ List.mem_map_of_mem hp)
        rw [beq_false_of_ne hne]
        exact ih hnodup.2 hp

/-- The allocation of `s` reports the placements `done`, one for each interval in order. -/
structure Allocation.Reports (a : Allocation) (s : Stream) (done : List Placement) : Prop where
  intervals : a.intervals = liveIntervals s
  placed : done.map Placement.interval = liveIntervals s
  assignments : a.assignments = done.map fun p => (p.interval.vreg, p.reg)

namespace Allocation.Reports

variable {a : Allocation} {s : Stream} {done : List Placement}

theorem nodup_vreg (h : a.Reports s done) : (done.map (·.interval.vreg)).Nodup := by
  have hnodup := nodup_vreg_liveIntervals s
  rwa [← h.placed, List.map_map] at hnodup

/-- A register that is mentioned has a placement, whose span holds the mention. -/
theorem exists_placement (h : a.Reports s done) {v p : Nat} (hv : Stream.MentionsAt s v p) :
    ∃ q ∈ done, q.interval ∈ liveIntervals s ∧ q.interval.vreg = v ∧
      q.interval.contains p = true ∧ a.reg? v = some q.reg := by
  rcases exists_mem_liveIntervals hv with ⟨i, hi, rfl⟩
  rcases List.mem_map.1 (h.placed ▸ hi) with ⟨q, hq, rfl⟩
  rcases liveIntervals_exact hi with ⟨hfirst, hlast⟩
  have hcontains : q.interval.contains p = true :=
    LiveInterval.contains_iff.2 ⟨hfirst.2 hv, hlast.2 hv⟩
  refine ⟨q, hq, hi, rfl, hcontains, ?_⟩
  rw [reg?, h.assignments]
  exact lookup_map_placement h.nodup_vreg hq

/-- Entry by entry, the assignments are those of the intervals. -/
theorem zip_intervals (h : a.Reports s done) :
    (liveIntervals s).zip a.assignments =
      done.map fun p => (p.interval, p.interval.vreg, p.reg) := by
  rw [← h.placed, h.assignments, List.zip_map']

/-- Binding span by span leaves no mention out. -/
theorem bindSpans (h : a.Reports s done) :
    s.bindSpans ((liveIntervals s).zip a.assignments) = s.map (·.mapRegs a.bind) := by
  refine Array.ext_getElem? fun p => ?_
  rw [Stream.getElem?_bindSpans, Array.getElem?_map]
  refine Option.map_congr fun i hi => Instr.mapRegs_congr fun r hr => ?_
  rcases h.exists_placement ⟨i, hi, r, hr, rfl⟩ with ⟨q, hq, -, hindex, hcontains, hreg⟩
  rw [bind_of_reg? hreg, h.zip_intervals]
  refine Stream.bindAt_of_mem ?_ (List.mem_map.2 ⟨q, hq, ?_⟩) hcontains
  · rw [List.map_map]
    exact h.nodup_vreg
  · rw [hindex]

end Allocation.Reports

namespace Scan

/-- What an allocation reports of a scan. -/
def allocation (scan : Scan) (s : Stream) : Allocation :=
  { assignments := scan.placed, intervals := liveIntervals s, peak := scan.peak }

/-- The intervals of a stream are in the order of allocation already, so the scan places them one by
one. -/
theorem run_reports {registers : Nat} {s : Stream} {scan : Scan} {tr tr' : Trace}
    (h : (run registers (liveIntervals s)).run tr = .ok scan tr') :
    ∃ done reached, (scan.allocation s).Reports s done ∧ Valid registers done reached scan := by
  rcases run_valid h with ⟨done, reached, hdone, hvalid⟩
  have hsorted : LiveInterval.sorted (liveIntervals s) = liveIntervals s :=
    LiveInterval.sorted_eq_self (LiveInterval.sorted_pairwise_before _)
  exact ⟨done, reached, ⟨rfl, hdone.trans hsorted, hvalid.placed⟩, hvalid⟩

end Scan

/-! ## Allocations -/

section Lift

variable {α : Type} {x : AllocM α} {d : Draft} {trace : Trace}

theorem run_lift_of_ok {a : α} (h : x.run d.trace = .ok a trace) :
    (liftM x : DraftM α).run d = .ok a { d with trace } := by
  have happlied : x d.trace = .ok a trace := h
  simp only [EStateM.run, liftM, monadLift, MonadLift.monadLift, happlied]

theorem run_lift_of_error {e : Error} (h : x.run d.trace = .error e trace) :
    (liftM x : DraftM α).run d = .error e { d with trace } := by
  have happlied : x d.trace = .error e trace := h
  simp only [EStateM.run, liftM, monadLift, MonadLift.monadLift, happlied]

end Lift

theorem run_allocateInPlace (settings : Settings) (d : Draft) :
    (allocateInPlace settings).run d =
      match settings.check with
      | .error e => .error e d
      | .ok () =>
          match (Scan.run settings.registers (liveIntervals d.stream)).run
              (d.trace.push (.measured (liveIntervals d.stream).length)) with
          | .error e trace => .error e { d with trace }
          | .ok scan trace =>
              .ok (scan.allocation d.stream)
                { stream := d.stream.map (·.mapRegs (scan.allocation d.stream).bind)
                  trace := trace.push
                    (.allocated scan.placed.length settings.registers scan.peak) } := by
  unfold allocateInPlace
  cases hcheck : settings.check with
  | error e =>
      have hchecked : (AllocM.ofExcept (.error e : Except Error Unit)).run d.trace =
          .error e d.trace := rfl
      exact run_bind_of_error (run_lift_of_error hchecked)
  | ok _ =>
      have hchecked : (AllocM.ofExcept (.ok ())).run d.trace = .ok () d.trace := rfl
      have hlogged : ∀ e, (AllocM.log e).run d.trace = .ok () (d.trace.push e) := fun _ => rfl
      rw [run_bind_of_ok (run_lift_of_ok hchecked), run_bind_of_ok (EStateM.run_get d),
        run_bind_of_ok (run_lift_of_ok (hlogged _))]
      cases hscan : (Scan.run settings.registers (liveIntervals d.stream)).run
          (d.trace.push (.measured (liveIntervals d.stream).length)) with
      | error e trace => exact run_bind_of_error (run_lift_of_error hscan)
      | ok scan trace =>
          rcases Scan.run_reports hscan with ⟨done, reached, hreports, -⟩
          simp only [← hreports.bindSpans]
          rw [run_bind_of_ok (run_lift_of_ok hscan)]
          rfl

section Allocate

variable {settings : Settings} {s bound : Stream} {a : Allocation} {tr : Trace}

/-- An allocation succeeds with the report of a scan that succeeds. -/
theorem allocate_eq_ok_iff :
    (∃ tr', (allocate settings s).run tr = .ok (a, bound) tr') ↔
      settings.check = .ok () ∧ ∃ scan tr',
        (Scan.run settings.registers (liveIntervals s)).run
          (tr.push (.measured (liveIntervals s).length)) = .ok scan tr' ∧
        a = scan.allocation s ∧ bound = s.map (·.mapRegs a.bind) := by
  have hrun : allocateInPlace settings { stream := s, trace := tr } = _ :=
    run_allocateInPlace settings { stream := s, trace := tr }
  change (∃ tr', allocate settings s tr = .ok (a, bound) tr') ↔ _
  rw [allocate, hrun]
  cases settings.check with
  | error e => simp
  | ok _ =>
      cases (Scan.run settings.registers (liveIntervals s)).run
          (tr.push (.measured (liveIntervals s).length)) with
      | error e trace => simp
      | ok scan trace =>
          constructor
          · rintro ⟨tr', h⟩
            cases h
            exact ⟨rfl, scan, trace, rfl, rfl, rfl⟩
          · rintro ⟨-, scan', trace', hscan, rfl, rfl⟩
            cases hscan
            exact ⟨_, rfl⟩

end Allocate

/-- Binding is total and changes nothing else.  After an allocation that succeeds, every register
that an operand refers to is bound to the register it was assigned, which is one of those there are,
and apart from what its registers are bound to the stream is as before; the intervals are those of
the stream, and the assignments are theirs, entry by entry.  An allocation that fails leaves the
stream alone. -/
theorem allocateInPlace_binds (settings : Settings) (d : Draft) :
    match (allocateInPlace settings).run d with
    | .ok a d' =>
        (∀ (p : Nat) i o r, d'.stream[p]? = some i → (i.dst = some o ∨ i.src = some o) →
          o.Refers r →
          ∃ reg, a.reg? r.index = some reg ∧ r.phys = some reg ∧ reg < settings.registers) ∧
        Stream.unbound d'.stream = Stream.unbound d.stream ∧
        a.intervals = liveIntervals d.stream ∧
        a.assignments.map Prod.fst = a.intervals.map LiveInterval.vreg
    | .error _ d' => d'.stream = d.stream := by
  rw [run_allocateInPlace]
  cases settings.check with
  | error e => rfl
  | ok _ =>
      cases hscan : (Scan.run settings.registers (liveIntervals d.stream)).run
          (d.trace.push (.measured (liveIntervals d.stream).length)) with
      | error e trace => rfl
      | ok scan trace =>
          rcases Scan.run_reports hscan with ⟨done, reached, hreports, hvalid⟩
          refine ⟨?_, ?_, rfl, ?_⟩
          · intro p i o r hi ho hr
            rw [Array.getElem?_map] at hi
            rcases Option.map_eq_some_iff.1 hi with ⟨j, hj, rfl⟩
            -- the register was mentioned here before, bound or not
            have hmem := Instr.mem_regs_iff_refers.2 ⟨o, ho, hr⟩
            rw [Instr.regs_mapRegs] at hmem
            rcases List.mem_map.1 hmem with ⟨r', hr', rfl⟩
            rcases hreports.exists_placement ⟨j, hj, r', hr', rfl⟩ with ⟨q, hq, -, -, -, hreg⟩
            rw [Allocation.bind_of_reg? hreg]
            exact ⟨q.reg, hreg, rfl, hvalid.bounded q hq⟩
          · rw [Stream.unbound, Stream.unbound, Array.map_map]
            congr 1
            funext i
            simp only [Function.comp_apply, Instr.mapRegs_mapRegs, Allocation.unbound_bind]
          · rw [hreports.intervals, hreports.assignments, ← hreports.placed, List.map_map,
              List.map_map]
            rfl

end Codegen
