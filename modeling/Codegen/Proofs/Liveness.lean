import Codegen.Interval
import Mathlib.Data.List.Induction
import Mathlib.Data.List.Nodup
import Mathlib.Order.Bounds.Basic

/-!
# Liveness — the intervals of a stream are exact

While a stream is read, a table keeps the interval of every register that came up, in the order in
which they came up, and for each register the place of its interval.  So a mention finds the
interval it extends, and in the end there is one interval for each register that is mentioned, from
the first to the last position that mentions it.  Which physical registers the mentions are bound to
does not matter.

* `Stream.MentionsAt`            : an instruction mentions a register, directly or as a base
* `LiveInterval.before`          : the order of allocation is an order, and sorting respects it
* `LiveTable.Found`              : the places and the intervals of the mentions read so far
* `liveIntervals_exact`          : the ends of an interval are the first and the last mention
* `exists_mem_liveIntervals`     : a mentioned register has an interval
* `nodup_vreg_liveIntervals`     : no register has two
* `liveIntervals_spans`          : all of this in terms of the operands alone
-/

namespace Codegen

/-! ## Mentions -/

namespace Stream

/-- The instruction at `position` mentions virtual register `v`. -/
def MentionsAt (s : Stream) (v position : Nat) : Prop :=
  ∃ i, s[position]? = some i ∧ ∃ r ∈ i.regs, r.index = v

theorem mem_mentions_iff {s : Stream} {v position : Nat} :
    (v, position) ∈ mentions s ↔ MentionsAt s v position := by
  simp only [mentions, MentionsAt, List.mem_flatMap, List.mem_map, Prod.exists, Prod.mk.injEq,
    List.mem_zipIdx_iff_getElem?, Array.getElem?_toList]
  constructor
  · rintro ⟨i, q, hi, r, hr, rfl, rfl⟩
    exact ⟨i, hi, r, hr, rfl⟩
  · rintro ⟨i, hi, r, hr, rfl⟩
    exact ⟨i, position, hi, r, hr, rfl, rfl⟩

theorem pairwise_flatMap_mentions (l : List Instr) (n : Nat) :
    ((l.zipIdx n).flatMap fun (i, position) => i.regs.map fun r => (r.index, position)).Pairwise
      (·.2 ≤ ·.2) := by
  rw [List.pairwise_flatMap]
  constructor
  · rintro ⟨i, position⟩ -
    rw [List.pairwise_map]
    exact List.pairwise_of_forall fun _ _ => le_refl position
  · have hidx : (l.zipIdx n).Pairwise (·.2 < ·.2) := by
      have hrange := List.pairwise_lt_range' (s := n) (n := l.length)
      rw [← List.zipIdx_map_snd n l] at hrange
      exact List.pairwise_map.1 hrange
    refine hidx.imp ?_
    rintro ⟨i, p⟩ ⟨j, q⟩ hpq m hm m' hm'
    rcases List.mem_map.1 hm with ⟨r, -, rfl⟩
    rcases List.mem_map.1 hm' with ⟨r', -, rfl⟩
    exact le_of_lt hpq

/-- Mentions are listed by position. -/
theorem pairwise_mentions (s : Stream) : (mentions s).Pairwise (·.2 ≤ ·.2) :=
  pairwise_flatMap_mentions s.toList 0

end Stream

/-! ## The order of allocation -/

namespace LiveInterval

theorem contains_iff {a : LiveInterval} {p : Nat} :
    a.contains p = true ↔ a.start ≤ p ∧ p ≤ a.stop := by
  simp [contains]

theorem before_iff {a b : LiveInterval} :
    a.before b = true ↔ a.start < b.start ∨ (a.start = b.start ∧ a.vreg ≤ b.vreg) := by
  simp [before]

theorem before_of_not_before {a b : LiveInterval} (h : ¬ a.before b = true) :
    b.before a = true := by
  rw [before_iff] at h ⊢
  omega

theorem before_trans {a b c : LiveInterval} (hab : a.before b = true) (hbc : b.before c = true) :
    a.before c = true := by
  rw [before_iff] at hab hbc ⊢
  omega

theorem insert_pairwise_before (a : LiveInterval) {l : List LiveInterval}
    (h : l.Pairwise (·.before · = true)) : (insert a l).Pairwise (·.before · = true) := by
  induction l with
  | nil => exact List.pairwise_singleton _ _
  | cons b rest ih =>
      rcases List.pairwise_cons.1 h with ⟨hb, hrest⟩
      unfold insert
      split
      · rename_i hab
        refine List.pairwise_cons.2 ⟨?_, h⟩
        intro c hc
        rcases List.mem_cons.1 hc with rfl | hc
        · exact hab
        · exact before_trans hab (hb c hc)
      · rename_i hab
        refine List.pairwise_cons.2 ⟨?_, ih hrest⟩
        intro c hc
        rcases List.mem_cons.1 ((insert_perm a rest).mem_iff.1 hc) with rfl | hc
        · exact before_of_not_before hab
        · exact hb c hc

theorem sorted_pairwise_before (l : List LiveInterval) :
    (sorted l).Pairwise (·.before · = true) := by
  induction l with
  | nil => exact .nil
  | cons a rest ih => exact insert_pairwise_before a ih

theorem sorted_eq_self {l : List LiveInterval} (h : l.Pairwise (·.before · = true)) :
    sorted l = l := by
  induction l with
  | nil => rfl
  | cons a rest ih =>
      rcases List.pairwise_cons.1 h with ⟨hfirst, hrest⟩
      have hinsert : sorted (a :: rest) = insert a rest :=
        congrArg (insert a) (ih hrest)
      rw [hinsert]
      cases rest with
      | nil => rfl
      | cons b rest => exact if_pos (hfirst b List.mem_cons_self)

theorem sorted_pairwise_start (l : List LiveInterval) :
    (sorted l).Pairwise (·.start ≤ ·.start) := by
  refine (sorted_pairwise_before l).imp ?_
  intro a b h
  rw [before_iff] at h
  omega

/-! ## Exact intervals -/

/-- The ends of `a` are the first and the last position that `mentions` has for its register. -/
def Exact (mentions : List (Nat × Nat)) (a : LiveInterval) : Prop :=
  IsLeast {p | (a.vreg, p) ∈ mentions} a.start ∧ IsGreatest {p | (a.vreg, p) ∈ mentions} a.stop

theorem exact_append_of_ne {mentions : List (Nat × Nat)} {v p : Nat} {a : LiveInterval}
    (h : Exact mentions a) (hne : a.vreg ≠ v) : Exact (mentions ++ [(v, p)]) a := by
  have hset : {q | (a.vreg, q) ∈ mentions ++ [(v, p)]} = {q | (a.vreg, q) ∈ mentions} := by
    ext q
    simp [hne]
  unfold Exact
  rw [hset]
  exact h

theorem exact_extended {mentions : List (Nat × Nat)} {p : Nat} {a : LiveInterval}
    (h : Exact mentions a) (hlast : ∀ m ∈ mentions, m.2 ≤ p) :
    Exact (mentions ++ [(a.vreg, p)]) { a with stop := p } := by
  refine ⟨⟨List.mem_append_left _ h.1.1, ?_⟩, ⟨by simp, ?_⟩⟩
  · intro q hq
    rcases List.mem_append.1 hq with hq | hq
    · exact h.1.2 hq
    · simp only [List.mem_singleton, Prod.mk.injEq, true_and] at hq
      rw [hq]
      exact hlast _ h.1.1
  · intro q hq
    rcases List.mem_append.1 hq with hq | hq
    · exact hlast _ hq
    · simp only [List.mem_singleton, Prod.mk.injEq, true_and] at hq
      rw [hq]

theorem exact_opened {mentions : List (Nat × Nat)} {v p : Nat}
    (hnew : ∀ q, (v, q) ∉ mentions) : Exact (mentions ++ [(v, p)]) ⟨v, p, p⟩ := by
  have hset : {q | (v, q) ∈ mentions ++ [(v, p)]} = {p} := by
    ext q
    simp [hnew q]
  unfold Exact
  simp only [hset]
  exact ⟨isLeast_singleton, isGreatest_singleton⟩

end LiveInterval

/-! ## The table while a stream is read -/

namespace LiveTable

open LiveInterval

/-- After `mentions` have been read, the table has the exact interval of each of their registers,
and the place that is kept for a register is that of its interval. -/
structure Found (mentions : List (Nat × Nat)) (t : LiveTable) : Prop where
  exact : ∀ a ∈ t.intervals, Exact mentions a
  complete : ∀ v p, (v, p) ∈ mentions → ∃ slot, t.slots.lookup v = some slot
  slot_iff : ∀ v slot, t.slots.lookup v = some slot ↔ (t.intervals.map vreg)[slot]? = some v

theorem map_vreg_modify (l : List LiveInterval) (slot p : Nat) :
    (l.modify slot ({ · with stop := p })).map vreg = l.map vreg := by
  apply List.ext_getElem?
  intro i
  rw [List.getElem?_map, List.getElem?_modify, List.getElem?_map]
  cases l[i]? with
  | none => rfl
  | some a =>
      by_cases hi : slot = i
      · simp [hi]
      · simp [hi]

namespace Found

variable {mentions : List (Nat × Nat)} {t : LiveTable} {v p slot : Nat}

/-- No two intervals are of one register, for it has one place. -/
theorem nodup (h : Found mentions t) : (t.intervals.map vreg).Nodup := by
  rw [List.nodup_iff_getElem?_ne_getElem?]
  intro i j hij hj heq
  have hget := List.getElem?_eq_getElem hj
  have hi := (h.slot_iff _ i).2 (heq.trans hget)
  have hj := (h.slot_iff _ j).2 hget
  exact Nat.ne_of_lt hij (Option.some.inj (hi.symm.trans hj))

/-- The register has a place: the interval there is extended. -/
theorem extended (h : Found mentions t) (hlast : ∀ m ∈ mentions, m.2 ≤ p)
    (hslot : t.slots.lookup v = some slot) :
    Found (mentions ++ [(v, p)])
      { t with intervals := t.intervals.modify slot ({ · with stop := p }) } where
  exact := by
    intro a ha
    rcases List.mem_iff_getElem?.1 ha with ⟨i, hi⟩
    rw [List.getElem?_modify] at hi
    cases hb : t.intervals[i]? with
    | none => simp [hb] at hi
    | some b =>
        have hexact := h.exact b (List.mem_of_getElem? hb)
        have hplace := (h.slot_iff b.vreg i).2 (by rw [List.getElem?_map, hb]; rfl)
        by_cases hslot' : slot = i
        · -- the interval at the place of `v` is that of `v`
          have hb' := (h.slot_iff v slot).1 hslot
          rw [hslot', List.getElem?_map, hb] at hb'
          cases hb'
          simp only [hb, hslot', if_true, Option.map_eq_map, Option.map_some,
            Option.some.injEq] at hi
          rw [← hi]
          exact exact_extended hexact hlast
        · simp only [hb, hslot', if_false, Option.map_eq_map, Option.map_some,
            Option.some.injEq] at hi
          subst hi
          refine exact_append_of_ne hexact ?_
          rintro rfl
          exact hslot' (Option.some.inj (hslot.symm.trans hplace))
  complete := by
    intro w q hw
    rcases List.mem_append.1 hw with hw | hw
    · exact h.complete w q hw
    · cases List.mem_singleton.1 hw
      exact ⟨slot, hslot⟩
  slot_iff := by
    intro w i
    rw [map_vreg_modify]
    exact h.slot_iff w i

/-- The register has no place: an interval is opened behind the others. -/
theorem opened (h : Found mentions t) (hnone : t.slots.lookup v = none) :
    Found (mentions ++ [(v, p)])
      { slots := (v, t.intervals.length) :: t.slots
        intervals := t.intervals ++ [⟨v, p, p⟩] } where
  exact := by
    have hnew : ∀ q, (v, q) ∉ mentions := by
      intro q hq
      rcases h.complete v q hq with ⟨slot, hslot⟩
      cases hnone.symm.trans hslot
    intro a ha
    rcases List.mem_append.1 ha with hold | ha
    · refine exact_append_of_ne (h.exact a hold) ?_
      intro hv
      exact hnew a.start (hv ▸ (h.exact a hold).1.1)
    · rw [List.mem_singleton.1 ha]
      exact exact_opened hnew
  complete := by
    intro w q hw
    rw [List.lookup_cons]
    split
    · exact ⟨_, rfl⟩
    · rename_i hne
      rcases List.mem_append.1 hw with hw | hw
      · exact h.complete w q hw
      · cases List.mem_singleton.1 hw
        simp at hne
  slot_iff := by
    intro w i
    have hlength : (t.intervals.map vreg).length = t.intervals.length := List.length_map _
    rw [List.map_append, List.lookup_cons]
    by_cases hw : w = v
    · -- the register was not in the table, so its only place is the last one
      subst hw
      have hfresh : ∀ i : Nat, (t.intervals.map vreg)[i]? ≠ some w := by
        intro i hi
        cases hnone.symm.trans ((h.slot_iff w i).2 hi)
      simp only [beq_self_eq_true, Option.some.injEq]
      constructor
      · rintro rfl
        simp
      · intro hi
        rcases Nat.lt_trichotomy i t.intervals.length with hlt | heq | hgt
        · rw [List.getElem?_append_left (hlength ▸ hlt)] at hi
          exact absurd hi (hfresh i)
        · exact heq.symm
        · rw [List.getElem?_eq_none (by simp; omega)] at hi
          cases hi
    · rw [beq_false_of_ne hw, h.slot_iff w i]
      rcases Nat.lt_or_ge i t.intervals.length with hlt | hge
      · rw [List.getElem?_append_left (hlength ▸ hlt)]
      · rw [List.getElem?_eq_none (hlength ▸ hge), List.getElem?_append_right (hlength ▸ hge)]
        refine ⟨by simp, fun hi => ?_⟩
        have := List.mem_of_getElem? hi
        simp [hw] at this

theorem note (h : Found mentions t) (hlast : ∀ m ∈ mentions, m.2 ≤ p) :
    Found (mentions ++ [(v, p)]) (t.note v p) := by
  unfold LiveTable.note
  cases hslot : t.slots.lookup v with
  | some slot => exact h.extended hlast hslot
  | none => exact h.opened hslot

end Found

/-- By induction on the mentions from the last one on: they come in the order of their positions. -/
theorem found_ofMentions (mentions : List (Nat × Nat)) (h : mentions.Pairwise (·.2 ≤ ·.2)) :
    Found mentions (ofMentions mentions) := by
  induction mentions using List.reverseRecOn with
  | nil => exact ⟨by simp [ofMentions], by simp, by simp [ofMentions]⟩
  | append_singleton rest m ih =>
      rcases List.pairwise_append.1 h with ⟨hrest, -, hlast⟩
      rw [ofMentions, List.foldl_append, List.foldl_cons, List.foldl_nil]
      exact (ih hrest).note fun m' hm' => hlast m' hm' m (List.mem_singleton_self m)

end LiveTable

/-! ## Intervals of a stream -/

section Intervals

variable {s : Stream} {a : LiveInterval} {v p : Nat}

theorem mem_liveIntervals_iff :
    a ∈ liveIntervals s ↔ a ∈ (LiveTable.ofMentions (Stream.mentions s)).intervals :=
  (LiveInterval.sorted_perm _).mem_iff

/-- An interval runs from the first to the last mention of its register. -/
theorem liveIntervals_exact (h : a ∈ liveIntervals s) :
    IsLeast {p | Stream.MentionsAt s a.vreg p} a.start ∧
      IsGreatest {p | Stream.MentionsAt s a.vreg p} a.stop := by
  have hfound := LiveTable.found_ofMentions _ (Stream.pairwise_mentions s)
  have hexact := hfound.exact a (mem_liveIntervals_iff.1 h)
  simpa only [LiveInterval.Exact, Stream.mem_mentions_iff] using hexact

theorem exists_mem_liveIntervals (h : Stream.MentionsAt s v p) :
    ∃ a ∈ liveIntervals s, a.vreg = v := by
  have hfound := LiveTable.found_ofMentions _ (Stream.pairwise_mentions s)
  rcases hfound.complete v p (Stream.mem_mentions_iff.2 h) with ⟨slot, hslot⟩
  rcases List.mem_map.1 (List.mem_of_getElem? ((hfound.slot_iff v slot).1 hslot)) with ⟨a, ha, hv⟩
  exact ⟨a, mem_liveIntervals_iff.2 ha, hv⟩

theorem nodup_vreg_liveIntervals (s : Stream) :
    ((liveIntervals s).map LiveInterval.vreg).Nodup := by
  have hfound := LiveTable.found_ofMentions _ (Stream.pairwise_mentions s)
  exact ((LiveInterval.sorted_perm _).map _).nodup_iff.2 hfound.nodup

/-- No two intervals share both start and register, so the order is strict. -/
theorem liveIntervals_pairwise (s : Stream) :
    (liveIntervals s).Pairwise fun a b =>
      a.start < b.start ∨ (a.start = b.start ∧ a.vreg < b.vreg) := by
  have hbefore : (liveIntervals s).Pairwise (·.before · = true) :=
    LiveInterval.sorted_pairwise_before _
  have hdistinct : (liveIntervals s).Pairwise fun a b => a.vreg ≠ b.vreg :=
    List.pairwise_map.1 (nodup_vreg_liveIntervals s)
  refine (hbefore.and hdistinct).imp ?_
  rintro a b ⟨hab, hne⟩
  rw [LiveInterval.before_iff] at hab
  omega

end Intervals

/-! ## Bound and unbound registers -/

/-- The register without the physical one it is bound to. -/
def VirtualReg.unbound (r : VirtualReg) : VirtualReg := { r with phys := none }

namespace Stream

/-- The stream with all its registers unbound. -/
def unbound (s : Stream) : Stream := s.map (·.mapRegs VirtualReg.unbound)

theorem mentions_map {f : VirtualReg → VirtualReg} (hf : ∀ r, (f r).index = r.index)
    (s : Stream) : mentions (s.map (·.mapRegs f)) = mentions s := by
  have hregs : ∀ i : Instr, (i.mapRegs f).regs.map VirtualReg.index =
      i.regs.map VirtualReg.index := by
    intro i
    rw [Instr.regs_mapRegs, List.map_map]
    exact List.map_congr_left fun r _ => hf r
  unfold mentions
  rw [Array.toList_map, List.zipIdx_map, List.flatMap_map]
  refine List.flatMap_congr ?_
  rintro ⟨i, position⟩ _
  have hpairs := congrArg (List.map fun v => (v, position)) (hregs i)
  rwa [List.map_map, List.map_map] at hpairs

theorem mentions_unbound (s : Stream) : mentions (unbound s) = mentions s :=
  mentions_map (f := VirtualReg.unbound) (fun _ => rfl) s

end Stream

/-! ## Intervals in terms of operands -/

/-- The operand is the virtual register `v`, or an address that has it as its base. -/
def Operand.Refers (o : Operand) (r : VirtualReg) : Prop :=
  o = .vreg r ∨ ∃ disp, o = .mem ⟨.reg r, disp⟩

theorem Operand.refers_iff {o : Operand} {r : VirtualReg} : o.Refers r ↔ o.reg? = some r := by
  constructor
  · rintro (rfl | ⟨disp, rfl⟩) <;> rfl
  · intro h
    cases o with
    | vreg r' =>
        cases h
        exact .inl rfl
    | mem a =>
        rcases a with ⟨base, disp⟩
        cases base with
        | reg r' =>
            cases h
            exact .inr ⟨disp, rfl⟩
        | _ => cases h
    | _ => cases h

theorem Instr.mem_regs_iff_refers {i : Instr} {r : VirtualReg} :
    r ∈ i.regs ↔ ∃ o, (i.dst = some o ∨ i.src = some o) ∧ o.Refers r := by
  simp only [regs, operands, List.mem_filterMap, List.mem_append, Option.mem_toList,
    Operand.refers_iff]

namespace Stream

/-- The destination or the source of the instruction at `position` refers to virtual register
`v`. -/
def OccursAt (s : Stream) (v position : Nat) : Prop :=
  ∃ i o r, s[position]? = some i ∧ (i.dst = some o ∨ i.src = some o) ∧ o.Refers r ∧ r.index = v

theorem occursAt_iff {s : Stream} {v p : Nat} : OccursAt s v p ↔ MentionsAt s v p := by
  constructor
  · rintro ⟨i, o, r, hi, ho, hr, rfl⟩
    exact ⟨i, hi, r, Instr.mem_regs_iff_refers.2 ⟨o, ho, hr⟩, rfl⟩
  · rintro ⟨i, hi, r, hr, rfl⟩
    rcases Instr.mem_regs_iff_refers.1 hr with ⟨o, ho, hr⟩
    exact ⟨i, o, r, hi, ho, hr, rfl⟩

end Stream

/-- Liveness is exact: the registers that operands refer to have one interval each, and no others
have one; it runs from the first to the last position that refers to the register; intervals are
listed by their start, and for equal starts by their register, strictly; and streams that differ
only in what their registers are bound to have the same intervals. -/
theorem liveIntervals_spans (s : Stream) :
    (∀ v, (∃ p, Stream.OccursAt s v p) ↔ ∃! a, a ∈ liveIntervals s ∧ a.vreg = v) ∧
      (∀ a ∈ liveIntervals s, IsLeast {p | Stream.OccursAt s a.vreg p} a.start ∧
        IsGreatest {p | Stream.OccursAt s a.vreg p} a.stop) ∧
      (liveIntervals s).Pairwise (fun a b =>
        a.start < b.start ∨ (a.start = b.start ∧ a.vreg < b.vreg)) ∧
      ∀ s', Stream.unbound s' = Stream.unbound s → liveIntervals s' = liveIntervals s := by
  simp only [Stream.occursAt_iff]
  refine ⟨fun v => ⟨?_, ?_⟩, fun a => liveIntervals_exact, liveIntervals_pairwise s, ?_⟩
  · rintro ⟨p, hp⟩
    rcases exists_mem_liveIntervals hp with ⟨a, ha, rfl⟩
    refine ⟨a, ⟨ha, rfl⟩, ?_⟩
    rintro b ⟨hb, hv⟩
    exact List.inj_on_of_nodup_map (nodup_vreg_liveIntervals s) hb ha hv
  · rintro ⟨a, ⟨ha, rfl⟩, -⟩
    exact ⟨a.start, (liveIntervals_exact ha).1.1⟩
  · intro s' hs'
    have hmentions : Stream.mentions s' = Stream.mentions s := by
      rw [← Stream.mentions_unbound s', hs', Stream.mentions_unbound]
    rw [liveIntervals, hmentions, liveIntervals]

/-- A register that is mentioned as a base only, another as a source only, and two that come up at
one position; all are bound to register 7. -/
def scattered : Stream :=
  #[ .move (.mem ⟨.reg ⟨6, some 7⟩, 8⟩) (.vreg ⟨5, some 7⟩),
     .unary .push (.vreg ⟨6, some 7⟩),
     .move (.fixed .rax) (.mem ⟨.reg ⟨5, some 7⟩, -8⟩),
     .binary .cmp (.vreg ⟨2, some 7⟩) (.imm 0) ]

theorem liveIntervals_spans_scattered :
    liveIntervals (Stream.unbound scattered) = [⟨5, 0, 2⟩, ⟨6, 0, 1⟩, ⟨2, 3, 3⟩] ∧
      Stream.unbound scattered = Stream.unbound (Stream.unbound scattered) ∧
      liveIntervals scattered = liveIntervals (Stream.unbound scattered) :=
  ⟨by decide +kernel, by decide +kernel,
    (liveIntervals_spans (Stream.unbound scattered)).2.2.2 scattered (by decide +kernel)⟩

end Codegen
