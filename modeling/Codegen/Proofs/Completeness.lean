import Codegen.Proofs.Preservation
import Codegen.Proofs.Procedures

/-!
# Completeness — which trees are refused, and where

Every tree is selected that has no assignment to something that is no place.  Of the others, those
where such an assignment can be seen from the root are refused at the root, before anything has been
done, and the rest at the first call argument that is blocked.

* `X64.Prepared`               : a tree is labeled, but beyond its calls at most leaves are
* `X64.select_ends`            : selecting an argument
* `X64.reduces`                : all recorded reductions end as they should
* `Target.selectRoot_complete` : selecting a tree
-/

namespace Codegen
namespace X64

variable {t : Target} {a : Arena} {site : NodeId → List Symbol} {table : LabelTable} {fuel : Nat}
  {id c : NodeId} {n : Node} {s : Selection} {x : Nonterminal}

/-! ## Arguments -/

/-- The tree of a node is ready to be reduced: recorded rules match, labeling has come to its
leaves, and beyond calls it may come to all nodes. -/
structure Prepared (t : Target) (a : Arena) (site : NodeId → List Symbol) (table : LabelTable)
    (id : NodeId) : Prop where
  sited : a.Sited site id
  chosen : Chosen a table id
  seen : ∀ m, a.Below Node.children id m → a.Leaf m → Seen t a site table m
  due : ∀ w m, a.Path Node.links id w m → .kind .call ∈ w → Due t a site table m

theorem Prepared.of_below (h : Prepared t a site table id) (hc : a.Below Node.children id c) :
    Prepared t a site table c where
  sited := h.sited.of_below hc.toLinks
  chosen m hm := h.chosen m (hc.trans hm)
  seen m hm := h.seen m (hc.trans hm)
  due w m hw hcall := by
    rcases hc with ⟨u, hu⟩
    exact h.due (u ++ w) m (hu.toLinks.append hw) (List.mem_append_right u hcall)

/-- What was recorded when the tree was labeled is still recorded when a node is reduced. -/
theorem Prepared.best_eq (h : Prepared t a site table id) (hintact : Intact t a site table id s) :
    s.table.best id = table.best id := by
  rcases hintact.labels id (.refl id) with hsame | ⟨-, ⟨hleaf, -⟩, hbest⟩
  · exact LabelTable.best_congr hsame
  · exact hbest (h.seen id (.refl id) hleaf)

/-- Nothing is recorded for a blocked node as a register. -/
theorem best_of_blocked (hrecords : table.Records id .reg ↔ ¬ a.Blocked id)
    (hblocked : a.Blocked id) : table.best id .reg = none := by
  rw [← Option.not_isSome_iff_eq_none]
  exact fun hsome => hrecords.1 hsome hblocked

/-- With this fuel, every recorded reduction in a tree that is not too high ends as it should. -/
def AllReduce (t : Target) (fuel : Nat) : Prop :=
  ∀ {a : Arena} {site : NodeId → List Symbol} {table : LabelTable} {id : NodeId}
    {x : Nonterminal}, Prepared t a site table id → table.Records id x →
    (∀ w m, a.Path Node.links id w m → w.length + (if x = .reg then 1 else 0) < fuel) →
    Reduces t a site table fuel id x

/-- Labeling the tree of a node prepares it. -/
theorem relabel_prepares {settings : Settings} (ht : Target.x64 settings = .ok t)
    (hsited : s.arena.Sited site id) (hroot : site id = [])
    (hdue : ∀ m, s.arena.Below Node.links id m → Due t s.arena site s.table m) :
    ∃ table trace, (t.relabel id).run s = .ok () { s with table, trace } ∧
      Confined t s.arena site (s.arena.Below Node.links id) s { s with table, trace } ∧
      Prepared t s.arena site table id ∧ (table.Records id .reg ↔ ¬ s.arena.Blocked id) := by
  have hsite : ∀ {w m}, s.arena.Path Node.children id w m → site m = w := by
    intro w m hw
    rw [hsited.site_eq hw, hroot, List.nil_append]
  have hawaits : ∀ w m, s.arena.Path Node.children id w m → t.Awaits s.arena s.table w m := by
    intro w m hw
    rw [← hsite hw]
    exact (hdue m ⟨w, hw.toLinks⟩).awaits
  rcases exists_labeled ht (l := ⟨s.table, s.trace⟩) hsited.isTree hawaits with
    ⟨l, hrun, hsame, hlabeled, hchosen, hrecords⟩
  have hseen : ∀ m, s.arena.Below Node.children id m → s.arena.Leaf m →
      Seen t s.arena site l.table m := by
    rintro m ⟨w, hw⟩ hleaf
    refine ⟨hleaf, ?_⟩
    rw [hsite hw]
    exact hlabeled w m hw
  -- where labeling has been before it changes nothing that is recorded
  have hripens : ∀ m, s.arena.Leaf m → Ripens t s.arena site s.table l.table m := by
    intro m hleaf
    by_cases hm : s.arena.Below Node.children id m
    · refine .inr ⟨hdue m hm.toLinks, hseen m hm hleaf, ?_⟩
      rintro ⟨⟨n, hn, hlinks⟩, hlabeled⟩
      refine (Target.moves_of_labelAt hrun).best_eq (Target.built_of_build ht).2 ?_ m (.refl m)
      intro k hk
      rw [hk.toLinks.eq_of_leaf hn hlinks]
      exact hlabeled.stable
    · exact .inl (hsame m hm)
  refine ⟨l.table, l.trace, ?_, ⟨Nat.le_refl _, fun _ _ _ => rfl, ?_, hripens⟩,
    ⟨hsited, hchosen, hseen, ?_⟩, hrecords⟩
  · unfold EStateM.run at hrun ⊢
    simp only [Target.relabel, hrun]
  · exact fun m hm => hsame m fun hm' => hm hm'.toLinks
  · intro w m hw hcall
    by_cases hm : s.arena.Below Node.children id m
    · -- another way leads to the node, one that leaves no call
      rcases hm with ⟨w', hw'⟩
      rcases hsited.ways w w' m hw hw'.toLinks with rfl | hleaf
      · exact absurd hcall hw'.not_call
      · exact .inr (hseen m ⟨w', hw'⟩ hleaf)
    · exact (hdue m ⟨w, hw⟩).congr (hsame m hm)

/-- An argument that is still to be selected: labeling may come to all its nodes, and it is not too
high. -/
structure Argument (t : Target) (a : Arena) (site : NodeId → List Symbol) (table : LabelTable)
    (fuel : Nat) (c : NodeId) : Prop where
  sited : a.Sited site c
  root : site c = []
  due : ∀ m, a.Below Node.links c m → Due t a site table m
  fuel : ∀ w m, a.Path Node.links c w m → w.length + 1 < fuel

/-- Labeling an argument prepares it: in the arena of `s` its tree is that of `a`, since nothing has
been done there yet. -/
theorem Argument.exists_prepared {settings : Settings} (ht : Target.x64 settings = .ok t)
    (h : Argument t a site table fuel c) (hintact : Intact t a site table c s) :
    ∃ table' trace, (t.selectWith (t.reduce fuel) c .reg).run s =
        (t.reduce fuel c .reg).run { s with table := table', trace } ∧
      Confined t s.arena site (s.arena.Below Node.links c) s { s with table := table', trace } ∧
      Prepared t s.arena site table' c ∧ (table'.Records c .reg ↔ ¬ s.arena.Blocked c) := by
  rcases Target.built_of_build ht with ⟨hgrammar, hbuilt⟩
  have halike := hintact.nodes
  have hdue : ∀ m, s.arena.Below Node.links c m → Due t s.arena site s.table m := by
    intro m hm
    have hm := halike.below_iff.1 hm
    exact ((hintact.labels m hm).due (h.due m hm)).of_get? hbuilt hgrammar (halike m hm)
  rcases (hdue c (.refl c)).awaits.exists_label with ⟨old, hold, -⟩
  rcases relabel_prepares ht (halike.sited hintact.size h.sited) h.root hdue with
    ⟨table', trace, hrun, hconfined, hprepared, hrecords⟩
  refine ⟨table', trace, ?_, hconfined, hprepared, hrecords⟩
  rw [Target.selectWith, run_bind_of_ok (EStateM.run_get s)]
  simp only [LabelTable.covers_of_label? hold, if_true]
  rw [run_bind_of_ok hrun]

/-- An argument is labeled and reduced, or refused if it is blocked. -/
theorem select_ends {settings : Settings} (ht : Target.x64 settings = .ok t)
    (hall : AllReduce t fuel) (hargument : Argument t a site table fuel c)
    (hintact : Intact t a site table c s) :
    Ends a (a.EnteredAt c)
      (fun v s' => Confined t a site (a.Below Node.links c) s s' ∧
        ∃ reg, s'.arena.operand? v = some (.vreg reg))
      ((t.selectWith (t.reduce fuel) c .reg).run s) := by
  rcases Target.built_of_build ht with ⟨hgrammar, hbuilt⟩
  have halike := hintact.nodes
  rcases hargument.exists_prepared ht hintact with
    ⟨table', trace, hrun, hlabeled, hprepared, hrecords⟩
  have hconfined : ∀ {s'}, Confined t s.arena site (s.arena.Below Node.links c) s s' →
      Confined t a site (a.Below Node.links c) s s' := by
    intro s' h
    exact (h.mono fun m => halike.below_iff.1).of_alike hbuilt hgrammar halike fun _ => id
  rw [hrun]
  by_cases hblocked : s.arena.Blocked c
  · -- no rule is recorded for a register, and the empty way comes before all others
    rcases hargument.sited.isDag.exists_get? with ⟨n, hn⟩
    have hbest := best_of_blocked hrecords hblocked
    cases fuel with
    | zero => exact absurd (hargument.fuel [] c (.root c)) (Nat.not_lt_zero _)
    | succ fuel =>
        have hn' := (halike c (.refl c)).trans hn
        rw [Target.run_reduce_none (s := { s with table := table', trace }) hbest hn']
        refine .refused ⟨.inl ⟨rfl, rfl, halike.blocked_iff.1 hblocked⟩, ?_⟩ hn
        intro w' m' _
        exact trivial
  · have hfuel : ∀ w m, s.arena.Path Node.links c w m →
        w.length + (if Nonterminal.reg = .reg then 1 else 0) < fuel :=
      fun w m hw => hargument.fuel w m (halike.path_iff.1 hw)
    have hends := hall hprepared (hrecords.2 hblocked) hfuel { s with table := table', trace }
      (.refl { s with table := table', trace } c)
    have hways : ∀ w m, a.EnteredAt c w m ↔ s.arena.BlockedAt c w m := by
      intro w m
      rw [← halike.enteredAt_iff]
      exact or_iff_right fun h => hblocked h.2.2
    refine ((hends.congr hways).of_alike halike ?_).mono ?_
    · intro w m hw
      exact ⟨w, halike.path_iff.1 ((hways w m).1 hw).path⟩
    · rintro v s' ⟨hreduced, hstands⟩
      exact ⟨hconfined (hlabeled.trans hreduced), hstands.exists_vreg⟩

/-- Arguments that are still to be selected, with no nodes in common but leaves. -/
structure Pending (t : Target) (a : Arena) (site : NodeId → List Symbol) (table : LabelTable)
    (fuel : Nat) (args : List NodeId) : Prop where
  each : ∀ c ∈ args, Argument t a site table fuel c
  apart : args.Pairwise fun c c' => ∀ m, a.Below Node.links c m → a.Below Node.links c' m →
    a.Leaf m

theorem Pending.tail {rest : List NodeId} (h : Pending t a site table fuel (c :: rest)) :
    Pending t a site table fuel rest where
  each m hm := h.each m (List.mem_cons_of_mem c hm)
  apart := h.apart.of_cons

/-- The arguments after the first one are as they were once it has been selected. -/
theorem Pending.intact {rest : List NodeId} {s' : Selection}
    (h : Pending t a site table fuel (c :: rest))
    (hintact : ∀ m ∈ c :: rest, Intact t a site table m s)
    (hconfined : Confined t a site (a.Below Node.links c) s s') :
    ∀ m ∈ rest, Intact t a site table m s' := by
  intro m hm
  have hm' := List.mem_cons_of_mem c hm
  refine (hintact m hm').confined (h.each m hm').sited hconfined ?_
  intro k hk hk'
  exact (List.pairwise_cons.1 h.apart).1 m hm k hk' hk

/-- Labeling may come to all arguments of a call, and they have no nodes in common but leaves. -/
theorem Prepared.pending {callee : String} {args : List NodeId}
    (h : Prepared t a site table id) (hn : a.get? id = some (.call callee args))
    (hfuel : ∀ w m, a.Path Node.links id w m → w.length < fuel) :
    Pending t a site table fuel args where
  each c hc := by
    rcases List.mem_iff_getElem?.1 hc with ⟨slot, hslot⟩
    refine ⟨h.sited.of_below (.of_mem (n := .call callee args) hn hc),
      h.sited.argument id callee args c (.refl id) hn hc, ?_, ?_⟩
    · rintro m ⟨w, hw⟩
      exact h.due _ m (.step (n := .call callee args) hn hslot hw) List.mem_cons_self
    · intro w m hw
      have hlen := hfuel _ m (.step (n := .call callee args) hn hslot hw)
      simp only [List.length_cons] at hlen
      omega
  apart := by
    rw [List.pairwise_iff_getElem]
    intro i j hi hj hij m hm hm'
    have hc : (Node.call callee args).links[i]? = some args[i] := List.getElem?_eq_getElem hi
    have hc' : (Node.call callee args).links[j]? = some args[j] := List.getElem?_eq_getElem hj
    exact h.sited.leaf_of_slots hn hc hc' (Nat.ne_of_lt hij) hm hm'

/-- Arguments are selected one after the other. -/
theorem selectAll_ends {settings : Settings} (ht : Target.x64 settings = .ok t)
    (hall : AllReduce t fuel) {args : List NodeId} {slot : Nat}
    (hpending : Pending t a site table fuel args)
    (hintact : ∀ c ∈ args, Intact t a site table c s) :
    Ends a (Ways.among .call a.EnteredAt slot args)
      (fun _ s' => Confined t a site (fun m => ∃ c ∈ args, a.Below Node.links c m) s s')
      ((args.mapM fun arg => do
        SelectM.operand (← t.selectWith (t.reduce fuel) arg .reg)).run s) := by
  induction args generalizing slot s with
  | nil => exact .ok (fun _ _ => not_false) (.refl s)
  | cons c rest ih =>
      have hc := List.mem_cons_self (a := c) (l := rest)
      have hselected : Ends a (a.EnteredAt c)
          (fun _ s' => Confined t a site (a.Below Node.links c) s s')
          ((do SelectM.operand (← t.selectWith (t.reduce fuel) c .reg)).run s) := by
        refine Ends.andThen (select_ends ht hall (hpending.each c hc) (hintact c hc)) ?_
        rintro v s₁ ⟨hconfined, reg, hreg⟩
        exact ⟨_, s₁, SelectM.run_operand hreg, hconfined⟩
      rw [List.mapM_cons]
      refine (hselected.under .call slot).bind ?_ fun _ _ _ _ => Ways.under_precedes_among
      intro o s₁ hconfined
      refine Ends.andThen (ih hpending.tail (hpending.intact hintact hconfined)) ?_
      intro os s₂ hconfined'
      refine ⟨_, s₂, rfl, (hconfined.mono fun m hm => ⟨c, hc, hm⟩).trans (hconfined'.mono ?_)⟩
      rintro m ⟨c', hc', hm⟩
      exact ⟨c', List.mem_cons_of_mem c hc', hm⟩

/-- A call ends as its arguments say. -/
theorem call_ends {settings : Settings} (ht : Target.x64 settings = .ok t)
    (hall : AllReduce t fuel) {callee : String} {args : List NodeId} {R : Reducer}
    (hselect : R.select = t.selectWith (t.reduce fuel))
    (hprepared : Prepared t a site table id) (hn : a.get? id = some (.call callee args))
    (hfuel : ∀ w m, a.Path Node.links id w m → w.length < fuel)
    (hintact : Intact t a site table id s) :
    Ends a (a.BlockedAt id)
      (fun v s' => Confined t a site (a.Below Node.links id) s s' ∧ Stands a s'.arena id .reg v)
      ((call R id).run s) := by
  have hbelow : ∀ c ∈ args, a.Below Node.links id c :=
    fun c hc => .of_mem (n := .call callee args) hn hc
  rw [call, run_bind_of_ok (SelectM.run_node ((hintact.nodes id (.refl id)).trans hn))]
  dsimp only
  rw [hselect]
  refine Ends.andThen ((selectAll_ends ht hall (hprepared.pending hn hfuel)
    fun c hc => hintact.of_below (hbelow c hc)).congr fun w m => Arena.blockedAt_call_iff hn) ?_
  intro values s₁ hconfined
  have hsize := Nat.le_trans hintact.size hconfined.size
  refine ⟨_, _, SelectM.run_leaving (fun dst => callSequence callee values dst) s₁, ?_,
    stands_leaving hsize⟩
  refine (hconfined.mono ?_).trans (.of_extends (.leaving s₁ _))
  rintro m ⟨c, hc, hm⟩
  exact (hbelow c hc).trans hm

/-! ## Reducing -/

variable {r : Rule}

/-- What the pattern of a recorded rule binds is reduced. -/
theorem bound_ends (hall : AllReduce t fuel) (hr : r ∈ rules)
    (hcall : r.pattern.avoids .call = true) (hprepared : Prepared t a site table id)
    (hmatches : r.pattern.Matches a table.Records id)
    (hfuel : ∀ w m, a.Path Node.links id w m →
      w.length + (if r.result = .reg then 1 else 0) < fuel + 1)
    (hintact : Intact t a site table id s) :
    Ends a (a.BlockedAt id)
      (fun v s' => Confined t a site (a.Below Node.links id) s s' ∧ Held a s'.arena r.pattern id v)
      ((t.bound fuel r id).run s) := by
  have hchain := fun y => @rule_chain r hr y
  unfold Target.bound
  generalize r.pattern = p at hcall hmatches hchain
  cases p with
  | nt y =>
      -- the node is the same, but not the goal: this is what the extra unit of fuel is for
      rcases hchain y rfl with ⟨hy, hresult, -⟩
      refine hall hprepared hmatches (fun w m hw => ?_) s hintact
      have hlen := hfuel w m hw
      rw [if_pos hresult] at hlen
      rw [if_neg hy]
      omega
  | node kind subs =>
      rw [Pattern.avoids, Bool.and_eq_true, decide_eq_true_eq] at hcall
      rcases hmatches with ⟨n, hn, rfl, hsubs⟩
      have hreduces : ∀ m, a.Below Node.children id m → m ≠ id → ∀ y, table.Records m y →
          Reduces t a site table fuel m y := by
        intro m hm hne y hrecords
        refine hall (hprepared.of_below hm) hrecords fun w k hw => ?_
        rcases hm with ⟨u, hu⟩
        have hlen := hfuel (u ++ w) k (hu.toLinks.append hw)
        have hlong := hu.two_le_length hne
        rw [List.length_append] at hlen
        split <;> omega
      have hbelow : ∀ c ∈ n.children, a.Below Node.links id c :=
        fun c hc => (Arena.Below.of_mem hn hc).toLinks
      have hnone : ([] : List NodeId).length = 0 := rfl
      have hbind := bindSubs_ends hprepared.sited hreduces r.name subs hcall.2 (.refl id) hn
        (List.nil_append _).symm hsubs (fun c hc => hintact.of_below (hbelow c hc))
        ((hintact.nodes id (.refl id)).trans hn) (List.nil_append _).symm hnone hnone
      refine Ends.andThen (hbind.congr fun w m => Arena.blockedAt_iff hn hcall.1) ?_
      rintro _ s₁ ⟨hconfined, vs, n', hn', hshape, hchildren, hheld⟩
      refine ⟨id, s₁, rfl, hconfined.mono ?_, rfl, n, n', hn, hn', rfl, hshape, ?_⟩
      · rintro m (rfl | ⟨c, hc, hm⟩)
        · exact .refl m
        · exact (hbelow c hc).trans hm
      · rwa [hchildren]

/-- Every recorded reduction ends as it should.  A node that is reduced by a chain rule comes up a
second time, but then not for a register, and an argument is further from the root than its call. -/
theorem reduces {settings : Settings} (ht : Target.x64 settings = .ok t) (fuel : Nat) :
    AllReduce t fuel := by
  induction fuel with
  | zero =>
      intro a site table id x _ _ hfuel
      exact absurd (hfuel [] id (.root id)) (Nat.not_lt_zero _)
  | succ fuel ih =>
      intro a site table id x hprepared hrecords hfuel s hintact
      rcases Option.isSome_iff_exists.1 hrecords with ⟨choice, hbest⟩
      rcases hprepared.chosen id (.refl id) x choice hbest with
        ⟨r, base, hr, rfl, hbase, hmatches⟩
      rw [← hprepared.best_eq hintact] at hbest
      have hrules : t.grammar.rules[choice.rule]? = some r := by
        rw [(Target.built_of_build ht).1]
        exact hr
      have hmem := List.mem_of_getElem? hr
      rw [Target.run_reduce_some hbest hrules]
      rcases rule_call hmem with hcall | ⟨hpattern, hresult, hemit⟩
      · refine Ends.andThen (bound_ends ih hmem hcall hprepared hmatches hfuel hintact) ?_
        rintro v s₁ ⟨hconfined, hheld⟩
        have hsize := Nat.le_trans hintact.size hconfined.size
        rcases emits (s := s₁.applied id r.result r.name) hmem hcall hbase hsize hheld
            { select := t.selectWith (t.reduce fuel), reduce := t.reduce fuel } with
          ⟨v', s', code, hrun, hext, hstands⟩
        have hemitted : Confined t a site (a.Below Node.links id) s₁ s' :=
          (Confined.applied s₁ id r.result r.name).trans (.of_extends hext)
        exact ⟨v', s', hrun, hconfined.trans hemitted, hstands⟩
      · -- the pattern binds nothing; the arguments are selected by the procedure
        rw [hpattern] at hmatches
        rcases hmatches with ⟨n, hn, hkind, -⟩
        have hbound : (t.bound fuel r id).run s = .ok id s := by
          unfold Target.bound
          rw [hpattern]
          rfl
        rw [run_bind_of_ok hbound, hemit, hresult]
        cases n with
        | call callee args =>
            refine (call_ends ht ih (s := s.applied id .reg r.name) rfl hprepared hn ?_
              ⟨hintact.nodes, hintact.labels, hintact.size⟩).mono ?_
            · intro w m hw
              have hlen := hfuel w m hw
              rw [if_pos hresult] at hlen
              omega
            · rintro v s' ⟨hconfined, hstands⟩
              exact ⟨(Confined.applied s id .reg r.name).trans hconfined, hstands⟩
        | _ => cases hkind

/-! ## Selecting -/

variable {settings : Settings} {root : NodeId}

/-- Selecting a tree prepares it and then reduces its root. -/
theorem exists_prepared (ht : Target.x64 settings = .ok t)
    (hsited : s.arena.Sited site root) (hroot : site root = []) :
    ∃ table trace, Prepared t s.arena site table root ∧
      (table.Records root .reg ↔ ¬ s.arena.Blocked root) ∧
      (t.selectRoot root).run s = (do
        let value ← t.reduce (t.nesting s.arena) root .reg
        modify fun s => { s with stats := { s.stats with trees := s.stats.trees + 1 } }
        return value : SelectM NodeId).run { s with table, trace } := by
  have hdue : ∀ m, s.arena.Below Node.links root m →
      Due t s.arena site (.blank s.arena.size t.grammar.size) m :=
    fun m hm => .inl (LabelTable.label?_blank (hsited.inside m hm))
  rcases relabel_prepares (s := { s with table := .blank s.arena.size t.grammar.size }) ht hsited
      hroot hdue with
    ⟨table, trace, hrelabel, -, hprepared, hrecords⟩
  refine ⟨table, trace, hprepared, hrecords, ?_⟩
  have hstart : t.grammar.start = .reg := by
    rw [(Target.built_of_build ht).1]
    rfl
  rw [Target.run_selectRoot_of_relabel hrelabel, hstart]

/-- A blocked tree is refused at its root, before anything but labels and events has changed. -/
theorem selectRoot_refuses (ht : Target.x64 settings = .ok t)
    (hnear : s.arena.NearTree root) (hblocked : s.arena.Blocked root) :
    ∃ n table trace, s.arena.get? root = some n ∧ (t.selectRoot root).run s =
      .error (.error (.noRule root n.kind .reg)) { s with table, trace } := by
  rcases hnear with ⟨site, hroot, hsited⟩
  rcases hsited.isDag.exists_get? with ⟨n, hn⟩
  rcases exists_prepared ht hsited hroot with ⟨table, trace, -, hrecords, hrun⟩
  have hbest := best_of_blocked hrecords hblocked
  have hfuel := Target.lt_nesting t hsited.isDag (.root root)
  rcases Nat.exists_eq_succ_of_ne_zero (Nat.ne_of_gt (Nat.lt_of_le_of_lt (Nat.zero_le _) hfuel))
    with ⟨fuel, hnesting⟩
  refine ⟨n, table, trace, hn, ?_⟩
  rw [hrun, hnesting, EStateM.run_bind,
    Target.run_reduce_none (s := { s with table, trace }) hbest hn]

/-- Any other tree ends as its call arguments say. -/
theorem selectRoot_ends (ht : Target.x64 settings = .ok t)
    (hnear : s.arena.NearTree root) (hblocked : ¬ s.arena.Blocked root) :
    Ends s.arena (s.arena.BlockedAt root)
      (fun value s' => ∃ reg, s'.arena.get? value = some (.vreg reg))
      ((t.selectRoot root).run s) := by
  rcases hnear with ⟨site, hroot, hsited⟩
  rcases exists_prepared ht hsited hroot with ⟨table, trace, hprepared, hrecords, hrun⟩
  rw [hrun]
  have hfuel : ∀ w m, s.arena.Path Node.links root w m →
      w.length + (if Nonterminal.reg = .reg then 1 else 0) < t.nesting s.arena :=
    fun w m hw => Target.lt_nesting t hsited.isDag hw
  refine Ends.andThen (reduces ht _ hprepared (hrecords.2 hblocked) hfuel { s with table, trace }
    (.refl { s with table, trace } root)) ?_
  rintro value s₁ ⟨-, hstands⟩
  rcases hstands.exists_vreg with ⟨reg, hreg⟩
  exact ⟨value, _, rfl, reg, Target.get?_of_operand? hreg⟩

end X64

namespace Target

/-- Selecting a tree ends with a register exactly if every assignment in it, in call arguments as
well, is to a place.  Otherwise it is refused.  If an assignment to something else can be seen from
the root then the root is refused, with everything but labels and events as it was; if there are
such assignments in call arguments only then the first argument is refused that one of them can be
seen from, from left to right and an argument before those nested inside it. -/
theorem selectRoot_complete {settings : Settings} {t : Target} (ht : Target.x64 settings = .ok t)
    {s : Selection} {root : NodeId} (htree : s.arena.IsTree Node.links root) :
    ((∃ value s' reg, (t.selectRoot root).run s = .ok value s' ∧
        s'.arena.get? value = some (.vreg reg)) ↔
      ∀ m, s.arena.Below Node.links root m → ¬ s.arena.Misplaced m) ∧
    (s.arena.Blocked root → ∃ n s', s.arena.get? root = some n ∧
      (t.selectRoot root).run s = .error (.error (.noRule root n.kind .reg)) s' ∧
      s'.arena = s.arena ∧ s'.stream = s.stream ∧ s'.nextReg = s.nextReg ∧
      s'.stats = s.stats) ∧
    (¬ s.arena.Blocked root → (∃ m, s.arena.Below Node.links root m ∧ s.arena.Misplaced m) →
      ∃ w arg n s', Ways.First (s.arena.BlockedAt root) w arg ∧ s.arena.get? arg = some n ∧
        (t.selectRoot root).run s = .error (.error (.noRule arg n.kind .reg)) s') := by
  have hrefused : ¬ s.arena.Blocked root →
      (∃ m, s.arena.Below Node.links root m ∧ s.arena.Misplaced m) →
      ∃ w arg n s', Ways.First (s.arena.BlockedAt root) w arg ∧ s.arena.get? arg = some n ∧
        (t.selectRoot root).run s = .error (.error (.noRule arg n.kind .reg)) s' := by
    intro hblocked hmisplaced
    refine (X64.selectRoot_ends ht htree.nearTree hblocked).exists_refused ?_
    exact (Arena.exists_misplaced_iff.1 hmisplaced).resolve_left hblocked
  refine ⟨⟨?_, ?_⟩, ?_, hrefused⟩
  · rintro ⟨value, s', reg, hrun, -⟩ m hm hmisplaced
    by_cases hblocked : s.arena.Blocked root
    · rcases X64.selectRoot_refuses ht htree.nearTree hblocked with ⟨n, table, trace, -, hrun'⟩
      cases hrun.symm.trans hrun'
    · rcases hrefused hblocked ⟨m, hm, hmisplaced⟩ with ⟨w, arg, n, s'', -, -, hrun'⟩
      cases hrun.symm.trans hrun'
  · intro hplaced
    have hnone : ¬ (s.arena.Blocked root ∨ ∃ w arg, s.arena.BlockedAt root w arg) := by
      rw [← Arena.exists_misplaced_iff]
      rintro ⟨m, hm, hmisplaced⟩
      exact hplaced m hm hmisplaced
    rw [not_or] at hnone
    rcases (X64.selectRoot_ends ht htree.nearTree hnone.1).exists_ok
        (fun w arg harg => hnone.2 ⟨w, arg, harg⟩) with
      ⟨value, s', hrun, reg, hreg⟩
    exact ⟨value, s', reg, hrun, hreg⟩
  · intro hblocked
    rcases X64.selectRoot_refuses ht htree.nearTree hblocked with ⟨n, table, trace, hn, hrun⟩
    exact ⟨n, _, hn, hrun, rfl, rfl, rfl, rfl⟩

/-- The call `f(g(1 = 2), 3 = 4)`, with its root at 7. -/
def nestedCalls : Arena :=
  ⟨#[.literal 1, .literal 2, .assign 0 1, .call "g" [2], .literal 3, .literal 4, .assign 4 5,
    .call "f" [3, 6]]⟩

/-- The argument of the inner call comes first, though the other one is nearer to the root. -/
theorem selectRoot_complete_nestedCalls :
    nestedCalls.IsTree Node.links 7 ∧ ∃ t s', Target.x64 {} = .ok t ∧
      (t.selectRoot 7).run { arena := nestedCalls } =
        .error (.error (.noRule 2 .assign .reg)) s' := by
  have htree : nestedCalls.IsTree Node.links 7 := by decide
  rcases @selectRoot_complete {} _ rfl { arena := nestedCalls } 7 htree with ⟨-, -, hrefused⟩
  have hblocked : nestedCalls.Blocked 2 :=
    ⟨2, .refl 2, 0, 1, .literal 1, rfl, rfl, by simp [NodeKind.IsPlace, Node.kind]⟩
  have hinner : nestedCalls.BlockedAt 3 [.kind .call, .child 0] 2 := .argument rfl rfl hblocked
  have hnested : nestedCalls.BlockedAt 7 [.kind .call, .child 0, .kind .call, .child 0] 2 :=
    .step (n := .call "f" [3, 6]) rfl rfl hinner
  rcases hrefused (Arena.not_blocked_leaf (n := .call "f" [3, 6]) rfl rfl)
      (Arena.exists_misplaced_iff.2 (.inr ⟨_, _, hnested⟩)) with
    ⟨w, arg, n, s', hfirst, hn, hrun⟩
  -- a way from the root leads to one of the assignments or to a leaf
  have hways : ∀ p ∈ nestedCalls.ways Node.links 8 7,
      p.2 = 2 ∨ p.2 = 6 ∧ slots p.1 = [1] ∨
        (nestedCalls.get? p.2).any (fun n => n.children = []) = true := by
    decide
  have hpath := hfirst.mem.path
  rcases hways _ (Arena.mem_ways_iff.2 ⟨hpath, htree.length_lt hpath⟩) with
    harg | ⟨-, hslots⟩ | hleaf
  · cases harg
    cases hn
    exact ⟨htree, _, s', rfl, hrun⟩
  · have hprecedes := hfirst.precedes _ _ hnested
    rw [hslots] at hprecedes
    rcases hprecedes with hlt | ⟨heq, -⟩
    · cases hlt
    · cases heq
  · rw [Option.any_eq_true] at hleaf
    rcases hleaf with ⟨n', hn', hchildren⟩
    exact absurd hfirst.mem.blocked (Arena.not_blocked_leaf hn' (of_decide_eq_true hchildren))

end Target

end Codegen
