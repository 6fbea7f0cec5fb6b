import Codegen.Proofs.Completeness
import Codegen.Proofs.Schemes

/-!
# Translation — selecting a tree emits its code

However the selection of a tree ends, what it has emitted is the code of goals in the tree; if it
succeeds then of the goal it was asked for, and the operands that replace children in the arena
belong to what they replace.  After a failure the code is that of the goals reached before it.

* `X64.Wrote`              : the code of goals has been emitted
* `X64.Writes`             : a run writes code, and ends with a result that has a property
* `X64.Translated`         : what a successful reduction has done
* `X64.writes`             : all recorded reductions
* `X64.selectRoot_writes`  : selecting a tree
-/

namespace Codegen
namespace X64

variable {t : Target} {g a : Arena} {site : NodeId → List Symbol} {table : LabelTable}
  {fuel : Nat} {id c v : NodeId} {n : Node} {s s' s₁ : Selection} {x y : Nonterminal}
  {goals goals' : List Goal} {os os' : List Operand} {o : Operand} {owner : NodeId → NodeId}
  {result : EStateM.Result Failure Selection NodeId} {α β : Type}

/-! ## Code in a stream -/

/-- From `s` to `s'` the code of the goals has been emitted, and operands are what they were. -/
structure Wrote (g : Arena) (goals : List Goal) (os : List Operand) (s s' : Selection) : Prop where
  code : ∃ code, s'.stream.toList = s.stream.toList ++ code ∧
    Code g goals s.nextReg code os s'.nextReg
  keeps : s.arena.Keeps s'.arena

theorem Wrote.idle (hstream : s'.stream = s.stream) (hnext : s'.nextReg = s.nextReg)
    (harena : s'.arena = s.arena) : Wrote g [] [] s s' where
  code := by
    refine ⟨[], ?_, ?_⟩
    · rw [hstream, List.append_nil]
    · rw [hnext]
      exact .nil _
  keeps := by
    rw [harena]
    exact .refl _

theorem Wrote.append (h : Wrote g goals os s s₁) (h' : Wrote g goals' os' s₁ s') :
    Wrote g (goals ++ goals') (os ++ os') s s' where
  code := by
    rcases h.code with ⟨code, hstream, hcode⟩
    rcases h'.code with ⟨code', hstream', hcode'⟩
    refine ⟨code ++ code', ?_, hcode.append hcode'⟩
    rw [hstream', hstream, List.append_assoc]
  keeps := h.keeps.trans h'.keeps

/-- Logging and counting a rule emits nothing. -/
theorem Wrote.applied (h : Wrote g goals os s s₁) (id : NodeId) (goal : Nonterminal)
    (rule : String) : Wrote g goals os s (s₁.applied id goal rule) :=
  ⟨h.code, h.keeps⟩

/-- The code after which a run ends: that of some goals `within` if it fails, and otherwise what the
property `Q` of its result says. -/
def Writes (g : Arena) (within : NodeId → Prop) (Q : α → Selection → Prop) (s : Selection) :
    EStateM.Result Failure Selection α → Prop
  | .ok v s' => Q v s'
  | .error _ s' => ∃ goals os, Wrote g goals os s s' ∧ ∀ goal ∈ goals, within goal.1

namespace Writes

variable {within within' : NodeId → Prop} {Q : α → Selection → Prop} {Q' : β → Selection → Prop}
  {result : EStateM.Result Failure Selection α} {m : SelectM α} {f : α → SelectM β}

theorem mono {P : α → Selection → Prop} (hQ : ∀ v s', Q v s' → P v s')
    (h : Writes g within Q s result) : Writes g within P s result := by
  cases result with
  | ok v s' => exact hQ v s' h
  | error e s' => exact h

theorem widen (hwithin : ∀ m, within m → within' m) (h : Writes g within Q s result) :
    Writes g within' Q s result := by
  cases result with
  | ok v s' => exact h
  | error e s' =>
      rcases h with ⟨goals, os, hwrote, hgoals⟩
      exact ⟨goals, os, hwrote, fun goal hgoal => hwithin _ (hgoals goal hgoal)⟩

theorem bind (hm : Writes g within Q s (m.run s₁))
    (hf : ∀ v s₂, Q v s₂ → Writes g within Q' s ((f v).run s₂)) :
    Writes g within Q' s ((m >>= f).run s₁) := by
  rw [EStateM.run_bind]
  generalize m.run s₁ = result at hm
  cases result with
  | ok v s₂ => exact hf v s₂ hm
  | error e s₂ => exact hm

/-- What was written before comes first. -/
theorem after (h : Wrote g goals os s s₁) (hgoals : ∀ goal ∈ goals, within goal.1)
    (hresult : Writes g within Q s₁ result) : Writes g within Q s result := by
  cases result with
  | ok v s' => exact hresult
  | error e s' =>
      rcases hresult with ⟨goals', os', hwrote, hgoals'⟩
      refine ⟨_, _, h.append hwrote, fun goal hgoal => ?_⟩
      rcases List.mem_append.1 hgoal with hgoal | hgoal
      · exact hgoals goal hgoal
      · exact hgoals' goal hgoal

/-- What else is known of the result. -/
theorem and_ends {W : Ways} {P : α → Selection → Prop} (h : Writes g within Q s result)
    (hends : Ends a W P result) : Writes g within (fun v s' => P v s' ∧ Q v s') s result := by
  cases hends with
  | ok _ hv => exact ⟨hv, h⟩
  | refused => exact h

end Writes

/-- The code of `id` has been emitted, `v` stands for its value, and what replaces children belongs
to them. -/
structure Translated (g : Arena) (id : NodeId) (x : Nonterminal) (s : Selection) (v : NodeId)
    (s' : Selection) : Prop where
  value : ∃ o, Wrote g [(id, x)] [o] s s' ∧ s'.arena.operand? v = some o
  grafted : ∃ owner, g.Grafted owner s'.arena ∧ g.Below Node.links id (owner v)

/-- What is done before anything is emitted does not count. -/
theorem Translated.after (hidle : Wrote g [] [] s s₁) (h : Translated g id x s₁ v s') :
    Translated g id x s v s' := by
  rcases h.value with ⟨o, hwrote, ho⟩
  exact ⟨⟨o, hidle.append hwrote, ho⟩, h.grafted⟩

/-- First the code of the goals, then the instructions of the scheme. -/
theorem Emitted.writes {within : NodeId → Prop} (hwrote : Wrote g goals os s s₁)
    (h : Emitted g id x goals os s₁ result) : Writes g within (Translated g id x s) s result := by
  rcases h with ⟨v, s', own, o, rfl, hscheme, hstream, hkeeps, ho, hgrafted⟩
  rcases hwrote.code with ⟨code, hstream₁, hcode⟩
  refine ⟨⟨o, ⟨⟨code ++ own, ?_, hcode.single hscheme⟩, hwrote.keeps.trans hkeeps⟩, ho⟩, hgrafted⟩
  rw [hstream, hstream₁, List.append_assoc]

/-! ## Bound children -/

/-- Reducing `id` writes its code and changes only the nodes below it. -/
def Writing (t : Target) (g a : Arena) (site : NodeId → List Symbol) (table : LabelTable)
    (fuel : Nat) (id : NodeId) (x : Nonterminal) : Prop :=
  ∀ s owner, Intact t a site table id s → g.Grafted owner s.arena →
    Writes g (g.Below Node.links id)
      (fun v s' => Confined t a site (a.Below Node.links id) s s' ∧ Translated g id x s v s') s
      ((t.reduce fuel id x).run s)

/-- From `s` to `s'` the children of `id` from a slot on have been reduced to `xs` and replaced. -/
structure Bound (g : Arena) (id : NodeId) (n : Node) (vs cs : List NodeId) (xs : List Nonterminal)
    (s s' : Selection) : Prop where
  filled : ∃ os vs' n', Wrote g (cs.zip xs) os s s' ∧ s'.arena.get? id = some n' ∧
    n'.shape = n.shape ∧ n'.children = vs ++ vs' ∧
    List.Forall₂ (fun v o => s'.arena.operand? v = some o) vs' os
  grafted : ∃ owner, g.Grafted owner s'.arena

/-- One child has been reduced: the operand for its value takes its place. -/
theorem Translated.splice {n' : Node} {slot : Nat} {vs rest : List NodeId}
    (h : Translated g c x s v s₁) (hn : g.get? id = some n) (hc : n.children[slot]? = some c)
    (htarget : n.kind = .assign → slot = 0 → x = .mem) (hn₁ : s₁.arena.get? id = some n')
    (hchildren : n'.children = vs ++ c :: rest) (hslot : vs.length = slot) :
    ∃ n'' o, (SelectM.setChild id slot v).run s₁ =
        .ok () { s₁ with arena := s₁.arena.set id n'' } ∧
      Wrote g [(c, x)] [o] s { s₁ with arena := s₁.arena.set id n'' } ∧
      (s₁.arena.set id n'').operand? v = some o ∧
      (s₁.arena.set id n'').get? id = some n'' ∧ n''.shape = n'.shape ∧
      n''.children = vs ++ v :: rest ∧ ∃ owner, g.Grafted owner (s₁.arena.set id n'') := by
  rcases h.value with ⟨o, hwrote, ho⟩
  rcases h.grafted with ⟨owner, hgrafted, howned⟩
  have hset : ∃ n'', n'.setChild? slot v = some n'' := by
    rw [← Option.isSome_iff_exists, Node.isSome_setChild?, hchildren, ← hslot]
    simp
  rcases hset with ⟨n'', hset⟩
  have hkeeps := Arena.Keeps.set hn₁ hset
  have hgraft : g.Graft owner s₁.arena n slot c v := by
    refine ⟨Option.isSome_of_eq_some ho, howned, ?_⟩
    intro hassign hzero
    rcases hwrote.code with ⟨code, -, hcode⟩
    have hshows := (List.forall₂_cons.1 hcode.shapes).1
    rw [htarget hassign hzero] at hshows
    rcases hshows.exists_mem with ⟨addr, rfl⟩
    exact ⟨addr, ho⟩
  refine ⟨n'', o, SelectM.run_setChild hn₁ hset, ⟨hwrote.code, hwrote.keeps.trans hkeeps⟩,
    hkeeps v o ho, Arena.get?_set_self (Arena.lt_size hn₁) n'', Node.shape_setChild? hset, ?_,
    owner, hgrafted.splice hn hn₁ hset hc hgraft⟩
  rw [Node.children_setChild? hset, hchildren, ← hslot, List.set_append_right _ _ (Nat.le_refl _),
    Nat.sub_self]
  rfl

/-- Children that are bound to nonterminals are reduced one after the other. -/
theorem bindNts_writes (hsited : a.Sited site id) (hn : a.get? id = some n)
    (hng : g.get? id = some n) (rule : String) {xs : List Nonterminal} {n' : Node} {slot : Nat}
    {done vs cs : List NodeId} (hdone : n.children = done ++ cs)
    (hrecords : List.Forall₂ table.Records cs xs)
    (hwriting : ∀ c ∈ cs, ∀ y, table.Records c y → Writing t g a site table fuel c y)
    (hintact : ∀ c ∈ cs, Intact t a site table c s)
    (htarget : n.kind = .assign → slot = 0 → xs.head? = some .mem)
    (hn' : s.arena.get? id = some n') (hshape : n'.shape = n.shape)
    (hchildren : n'.children = vs ++ cs) (hslot : done.length = slot) (hslot' : vs.length = slot)
    (hgrafted : g.Grafted owner s.arena) :
    Writes g (g.Below Node.links id)
      (fun _ s' => Confined t a site (a.Below Node.links id) s s' ∧ Bound g id n vs cs xs s s') s
      ((Target.bindSubs (t.reduce fuel) rule (xs.map .nt) id slot).run s) := by
  induction hrecords generalizing n' slot done vs s owner with
  | nil =>
      rw [List.map_nil, Target.bindSubs]
      exact ⟨.refl s, ⟨[], [], n', .idle rfl rfl rfl, hn', hshape, hchildren, .nil⟩, owner,
        hgrafted⟩
  | @cons c x cs xs hrecord hrecords ih =>
      have hothers : ∀ c' ∈ cs, c' ∈ c :: cs := fun c' => List.mem_cons_of_mem c
      have hc : n.children[slot]? = some c := by simp [hdone, ← hslot]
      have hbound : n'.children[slot]? = some c := by simp [hchildren, ← hslot']
      have hlink := Node.links_of_children hc
      have hlt := Nat.lt_of_lt_of_le (hsited.inside id (.refl id))
        (hintact c List.mem_cons_self).size
      rw [List.map_cons, Target.bindSubs, Target.bindSub, bind_assoc,
        run_bind_of_ok (Target.run_boundChild hn' hbound), bind_assoc]
      have hbelow : ∀ m, g.Below Node.links c m → g.Below Node.links id m :=
        fun m hm => (Arena.Below.child hng hlink).trans hm
      refine ((hwriting c List.mem_cons_self x hrecord s owner (hintact c List.mem_cons_self)
        hgrafted).widen hbelow).bind ?_
      rintro v s₁ ⟨hconfined, htranslated⟩
      -- the node itself is not below its child, so its slots are as they were
      have hn₁ : s₁.arena.get? id = some n' :=
        (hconfined.nodes id hlt fun h => absurd h (hsited.not_below_child hn hlink)).trans hn'
      have htarget' : n.kind = .assign → slot = 0 → x = .mem :=
        fun hassign hzero => Option.some.inj (htarget hassign hzero)
      rcases htranslated.splice hng hc htarget' hn₁ hchildren hslot' with
        ⟨n₂, o, hrun, hwrote, ho, hn₂, hshape₂, hchildren₂, owner₂, hgrafted₂⟩
      rw [run_bind_of_ok hrun]
      have hconfined₂ : Confined t a site (fun m => m = id ∨ a.Below Node.links c m) s
          { s₁ with arena := s₁.arena.set id n₂ } :=
        (hconfined.mono fun m hm => .inr hm).trans
          (.mono (fun m hm => .inl hm) (.replaced hn hlink s₁ n₂))
      -- nor are the other children, so they still are to be reduced
      have hintact₂ : ∀ c' ∈ cs,
          Intact t a site table c' { s₁ with arena := s₁.arena.set id n₂ } := by
        intro c' hc'
        rcases List.mem_iff_getElem?.1 hc' with ⟨i, hi⟩
        have hlink' : n.links[slot + (i + 1)]? = some c' := by
          refine Node.links_of_children ?_
          rw [hdone, ← hslot, List.getElem?_append_right (by omega), Nat.add_sub_cancel_left]
          exact hi
        refine (hintact c' (hothers c' hc')).confined (hsited.of_below (.child hn hlink'))
          hconfined₂ ?_
        rintro m hm (heq | hm')
        · exact absurd heq (hsited.ne_of_below_child hn hlink' hm)
        · exact hsited.leaf_of_slots hn hlink' hlink (by omega) hm hm'
      have hdone₂ : n.children = (done ++ [c]) ++ cs := by
        rw [hdone, List.append_assoc, List.singleton_append]
      have hvs₂ : n₂.children = (vs ++ [v]) ++ cs := by
        rw [hchildren₂, List.append_assoc, List.singleton_append]
      have htarget₂ : n.kind = .assign → slot + 1 = 0 → xs.head? = some .mem := nofun
      refine ((ih hdone₂ (fun c' hc' => hwriting c' (hothers c' hc')) hintact₂ htarget₂ hn₂
        (hshape₂.trans hshape) hvs₂ (by simp [hslot]) (by simp [hslot']) hgrafted₂).after
        hwrote (by simpa using hbelow c (.refl c))).mono ?_
      rintro _ s₃ ⟨hconfined₃, ⟨os, vs', n₃, hwrote₃, hn₃, hshape₃, hchildren₃, hall⟩, hgrafted₃⟩
      refine ⟨(hconfined₂.mono ?_).trans hconfined₃,
        ⟨o :: os, v :: vs', n₃, hwrote.append hwrote₃, hn₃, hshape₃, ?_, ?_⟩, hgrafted₃⟩
      · rintro m (rfl | hm)
        · exact .refl m
        · exact (Arena.Below.child hn hlink).trans hm
      · rw [hchildren₃, List.append_assoc, List.singleton_append]
      · exact .cons (hwrote₃.keeps v o ho) hall

/-! ## Arguments -/

/-- With this fuel, every recorded reduction in a tree that is not too high writes its code. -/
def AllWrite (t : Target) (g : Arena) (fuel : Nat) : Prop :=
  ∀ {a : Arena} {site : NodeId → List Symbol} {table : LabelTable} {id : NodeId}
    {x : Nonterminal}, Prepared t a site table id → table.Records id x →
    (∀ w m, a.Path Node.links id w m → w.length + (if x = .reg then 1 else 0) < fuel) →
    g.IsTree Node.links id → g.Alike Node.links a id →
    ∀ s owner, Intact t a site table id s → g.Grafted owner s.arena →
      Writes g (g.Below Node.links id) (Translated g id x s) s ((t.reduce fuel id x).run s)

variable {settings : Settings}

/-- An argument is labeled, and then its code is written. -/
theorem select_writes (ht : Target.x64 settings = .ok t) (hall : AllWrite t g fuel)
    (hargument : Argument t a site table fuel c) (hintact : Intact t a site table c s)
    (hgtree : g.IsTree Node.links c) (hgalike : g.Alike Node.links a c)
    (hgrafted : g.Grafted owner s.arena) :
    Writes g (g.Below Node.links c) (Translated g c .reg s) s
      ((t.selectWith (t.reduce fuel) c .reg).run s) := by
  have halike := hintact.nodes
  rcases hargument.exists_prepared ht hintact with
    ⟨table', trace, hrun, -, hprepared, hrecords⟩
  rw [hrun]
  by_cases hblocked : s.arena.Blocked c
  · -- no rule is recorded, and nothing is emitted
    rcases hargument.sited.isDag.exists_get? with ⟨n, hn⟩
    have hbest := best_of_blocked hrecords hblocked
    cases fuel with
    | zero => exact absurd (hargument.fuel [] c (.root c)) (Nat.not_lt_zero _)
    | succ fuel =>
        have hn' := (halike c (.refl c)).trans hn
        rw [Target.run_reduce_none (s := { s with table := table', trace }) hbest hn']
        exact ⟨[], [], .idle rfl rfl rfl, List.forall_mem_nil _⟩
  · have hfuel' : ∀ w m, s.arena.Path Node.links c w m →
        w.length + (if Nonterminal.reg = .reg then 1 else 0) < fuel :=
      fun w m hw => hargument.fuel w m (halike.path_iff.1 hw)
    have hgalike' : g.Alike Node.links s.arena c := by
      intro m hm
      exact (halike m (hgalike.below_iff.2 hm)).trans (hgalike m hm)
    have hlabeled : Wrote g [] [] s { s with table := table', trace } := .idle rfl rfl rfl
    refine ((hall hprepared (hrecords.2 hblocked) hfuel' hgtree hgalike'
      { s with table := table', trace } owner (.refl { s with table := table', trace } c)
      hgrafted).after hlabeled (List.forall_mem_nil _)).mono ?_
    exact fun v s' h => h.after hlabeled

/-- The codes of arguments come one after the other. -/
theorem selectAll_writes (ht : Target.x64 settings = .ok t) (hall : AllWrite t g fuel)
    {args : List NodeId} (hpending : Pending t a site table fuel args)
    (hintact : ∀ c ∈ args, Intact t a site table c s) (hgtree : ∀ c ∈ args, g.IsTree Node.links c)
    (hgalike : ∀ c ∈ args, g.Alike Node.links a c) (hgrafted : g.Grafted owner s.arena) :
    Writes g (fun m => ∃ c ∈ args, g.Below Node.links c m)
      (fun os s' => Wrote g (args.map fun arg => (arg, .reg)) os s s' ∧
        ∃ owner, g.Grafted owner s'.arena) s
      ((args.mapM fun arg => do
        SelectM.operand (← t.selectWith (t.reduce fuel) arg .reg)).run s) := by
  induction args generalizing s owner with
  | nil => exact ⟨.idle rfl rfl rfl, owner, hgrafted⟩
  | cons c rest ih =>
      have hc := List.mem_cons_self (a := c) (l := rest)
      have hothers : ∀ c' ∈ rest, c' ∈ c :: rest := fun c' => List.mem_cons_of_mem c
      have hselected := (select_writes ht hall (hpending.each c hc) (hintact c hc) (hgtree c hc)
        (hgalike c hc) hgrafted).and_ends
        (select_ends ht (reduces ht fuel) (hpending.each c hc) (hintact c hc))
      rw [List.mapM_cons, bind_assoc]
      refine (hselected.widen fun m hm => ⟨c, hc, hm⟩).bind ?_
      rintro v s₁ ⟨⟨hconfined, -⟩, htranslated⟩
      rcases htranslated.value with ⟨o, hwrote, ho⟩
      rcases htranslated.grafted with ⟨owner₁, hgrafted₁, -⟩
      rw [run_bind_of_ok (SelectM.run_operand ho)]
      have hwithin : ∀ m, (∃ c' ∈ rest, g.Below Node.links c' m) →
          ∃ c' ∈ c :: rest, g.Below Node.links c' m :=
        fun m ⟨c', hc', hm⟩ => ⟨c', hothers c' hc', hm⟩
      refine (((ih hpending.tail (hpending.intact hintact hconfined)
        (fun c' hc' => hgtree c' (hothers c' hc')) (fun c' hc' => hgalike c' (hothers c' hc'))
        hgrafted₁).widen hwithin).after hwrote (by simpa using .inl (.refl c))).bind ?_
      rintro os s₂ ⟨hwrote', hgrafted₂⟩
      exact ⟨hwrote.append hwrote', hgrafted₂⟩

/-- A call passes its arguments once their code has been written. -/
theorem call_writes (ht : Target.x64 settings = .ok t) (hall : AllWrite t g fuel)
    {callee : String} {args : List NodeId} {R : Reducer}
    (hselect : R.select = t.selectWith (t.reduce fuel)) (hprepared : Prepared t a site table id)
    (hn : a.get? id = some (.call callee args))
    (hfuel : ∀ w m, a.Path Node.links id w m → w.length < fuel)
    (hintact : Intact t a site table id s)
    (hgtree : g.IsTree Node.links id) (hgalike : g.Alike Node.links a id)
    (hgrafted : g.Grafted owner s.arena) :
    Writes g (g.Below Node.links id) (Translated g id .reg s) s ((call R id).run s) := by
  have hng : g.get? id = some (.call callee args) := (hgalike id (.refl id)).symm.trans hn
  have hbelow : ∀ c ∈ args, a.Below Node.links id c :=
    fun c hc => .of_mem (n := .call callee args) hn hc
  have hgbelow : ∀ c ∈ args, g.Below Node.links id c :=
    fun c hc => .of_mem (n := .call callee args) hng hc
  have hwithin : ∀ m, (∃ c ∈ args, g.Below Node.links c m) → g.Below Node.links id m := by
    rintro m ⟨c, hc, hm⟩
    exact (hgbelow c hc).trans hm
  rw [call, run_bind_of_ok (SelectM.run_node ((hintact.nodes id (.refl id)).trans hn))]
  dsimp only
  rw [hselect]
  refine ((selectAll_writes ht hall (hprepared.pending hn hfuel)
    (fun c hc => hintact.of_below (hbelow c hc)) (fun c hc => hgtree.of_below (hgbelow c hc))
    (fun c hc => hgalike.of_below (hgbelow c hc)) hgrafted).widen hwithin).bind ?_
  rintro os s₁ ⟨hwrote, owner₁, hgrafted₁⟩
  exact Emitted.writes hwrote (emitted_leaving hgrafted₁ s₁ rfl rfl
    (SelectM.run_leaving (fun dst => callSequence callee os dst) s₁) (.call hng))

/-! ## Reducing -/

variable {r : Rule} {base : Nat} {xs : List Nonterminal}

theorem forall₂_of_matchesAll {recorded : NodeId → Nonterminal → Prop} {cs : List NodeId}
    (h : Pattern.MatchesAll a recorded (xs.map .nt) cs) : List.Forall₂ recorded cs xs := by
  induction xs generalizing cs with
  | nil =>
      cases cs with
      | nil => exact .nil
      | cons => exact h.elim
  | cons x xs ih =>
      cases cs with
      | nil => exact h.elim
      | cons c cs => exact .cons h.1 (ih h.2)

/-- A rule with a node pattern binds children, and then its instructions are emitted. -/
theorem bound_node {kind : NodeKind} {subs : List Pattern} (hpattern : r.pattern = .node kind subs)
    (f : NodeId → SelectM NodeId) :
    (t.bound fuel r id >>= f) = (do
      Target.bindSubs (t.reduce fuel) r.name subs id 0
      f id) := by
  rw [Target.bound, hpattern]
  simp only [bind_assoc, pure_bind]

/-- Whatever is recorded for the nodes below one that is reduced can be reduced with less fuel. -/
theorem AllWrite.writing (ht : Target.x64 settings = .ok t) (hall : AllWrite t g fuel)
    (hprepared : Prepared t a site table id)
    (hfuel : ∀ w m, a.Path Node.links id w m → w.length < fuel + 1)
    (hgtree : g.IsTree Node.links id) (hgalike : g.Alike Node.links a id)
    (hc : a.Below Node.children id c) (hne : c ≠ id) (hrecords : table.Records c y) :
    Writing t g a site table fuel c y := by
  intro s owner hintact hgrafted
  have hgbelow : g.Below Node.links id c := hgalike.below_iff.1 hc.toLinks
  have hfuel' : ∀ w m, a.Path Node.links c w m → w.length + (if y = .reg then 1 else 0) < fuel := by
    intro w m hw
    rcases hc with ⟨u, hu⟩
    have hlen := hfuel (u ++ w) m (hu.toLinks.append hw)
    have hlong := hu.two_le_length hne
    rw [List.length_append] at hlen
    split <;> omega
  have hends := reduces ht fuel (hprepared.of_below hc) hrecords hfuel' s hintact
  refine ((hall (hprepared.of_below hc) hrecords hfuel' (hgtree.of_below hgbelow)
    (hgalike.of_below hgbelow) s owner hintact hgrafted).and_ends hends).mono ?_
  rintro v s' ⟨⟨hconfined, -⟩, htranslated⟩
  exact ⟨hconfined, htranslated⟩

section Rules

variable (R : Reducer) (hprepared : Prepared t a site table id) (hn : a.get? id = some n)
  (hng : g.get? id = some n) (hbase : r.cost.base? a id = .ok (some base))
  (hintact : Intact t a site table id s) (hgrafted : g.Grafted owner s.arena)
include hprepared hn hng hbase hintact hgrafted

/-- The children of a node are reduced and replaced, and then the procedure follows its scheme. -/
theorem follows_writes {k : NodeKind} (hgtree : g.IsTree Node.links id) (hfollows : Follows r k xs)
    (htarget : k = .assign → xs.head? = some .mem) (hkind : n.kind = k)
    (hrecords : List.Forall₂ table.Records n.children xs)
    (hwriting : ∀ c ∈ n.children, ∀ y, table.Records c y → Writing t g a site table fuel c y) :
    Writes g (g.Below Node.links id) (Translated g id r.result s) s
      ((do
        Target.bindSubs (t.reduce fuel) r.name (xs.map .nt) id 0
        SelectM.log (.reduced id r.result r.name)
        SelectM.tally r.name
        r.emit R id : SelectM NodeId).run s) := by
  have hnone : ([] : List NodeId).length = 0 := rfl
  refine (bindNts_writes hprepared.sited hn hng r.name (List.nil_append _).symm hrecords hwriting
    (fun c hc => hintact.of_below (Arena.Below.of_mem hn hc).toLinks)
    (fun hassign _ => htarget (hkind ▸ hassign)) ((hintact.nodes id (.refl id)).trans hn) rfl
    (List.nil_append _).symm hnone hnone hgrafted).bind ?_
  rintro _ s₁ ⟨-, ⟨os, vs, n', hwrote, hn', hshape, hchildren, hall⟩, owner₁, hgrafted₁⟩
  rw [List.nil_append] at hchildren
  rcases hwrote.code with ⟨code, -, hcode⟩
  exact Emitted.writes (hwrote.applied id r.result r.name)
    (hfollows R hgtree hng hn hkind hbase hgrafted₁ ⟨n', hn', hshape, hchildren ▸ hall⟩
      hcode.shapes)

/-- Where a sum is folded into the address, its operands are reduced and replaced. -/
theorem folded_writes (hemit : r.emit = derefFolded) (hresult : r.result = .mem)
    (hcost : r.cost = .computed Price.foldedDeref) (hkind : n.kind = .deref)
    (hmatches : Pattern.MatchesAll a table.Records [.node .binary [.nt .reg, .nt .imm]] n.children)
    (hgalike : g.Alike Node.links a id)
    (hwriting : ∀ m, a.Below Node.children id m → m ≠ id → ∀ y, table.Records m y →
      Writing t g a site table fuel m y) :
    Writes g (g.Below Node.links id) (Translated g id r.result s) s
      ((do
        Target.bindSubs (t.reduce fuel) r.name [.node .binary [.nt .reg, .nt .imm]] id 0
        SelectM.log (.reduced id r.result r.name)
        SelectM.tally r.name
        r.emit R id : SelectM NodeId).run s) := by
  cases n with
  | deref c =>
      rcases hmatches.1 with ⟨q, hq, hsum, hsubs⟩
      cases q with
      | binary op lhs rhs =>
          have hslot : (Node.deref c).links[0]? = some c := rfl
          have hbelow : a.Below Node.children id c := .of_mem hn List.mem_cons_self
          have hsame : ∀ m, a.Below Node.links id m → a.get? m = g.get? m :=
            fun m hm => hgalike m (hgalike.below_iff.1 hm)
          have hqg : g.get? c = some (.binary op lhs rhs) := (hsame c hbelow.toLinks).symm.trans hq
          have hsited := hprepared.sited.of_below hbelow.toLinks
          have hn' := (hintact.nodes id (.refl id)).trans hn
          have hnone : ([] : List NodeId).length = 0 := rfl
          have hrecorded : List.Forall₂ table.Records [lhs, rhs] [.reg, .imm] :=
            forall₂_of_matchesAll hsubs
          -- the pattern looks through the sum, so it is the sum whose children are replaced
          rw [Target.bindSubs, Target.bindSub, bind_assoc, bind_assoc,
            run_bind_of_ok (Target.run_boundChild hn' rfl)]
          refine ((bindNts_writes hsited hq hqg r.name (List.nil_append _).symm hrecorded ?_ ?_
            nofun ((hintact.nodes c hbelow.toLinks).trans hq) rfl (List.nil_append _).symm hnone
            hnone hgrafted).widen fun m hm => (hgalike.below_iff.1 hbelow.toLinks).trans hm).bind ?_
          · intro m hm y hrecords
            have hm := Arena.Below.of_mem hq hm
            exact hwriting m (hbelow.trans hm)
              (hprepared.sited.ne_of_below_child hn hslot hm.toLinks) y hrecords
          · intro m hm
            exact hintact.of_below (hbelow.trans (.of_mem hq hm)).toLinks
          · rintro _ s₁ ⟨hconfined, ⟨os, vs, q', hwrote, hq', hshape, hchildren, hall⟩, owner₁,
              hgrafted₁⟩
            rw [List.nil_append] at hchildren
            have hlt := Nat.lt_of_lt_of_le (hprepared.sited.inside id (.refl id)) hintact.size
            -- the dereference itself is as it was
            have hn₁ : s₁.arena.get? id = some (.deref c) :=
              (hconfined.nodes id hlt fun h =>
                absurd h (hprepared.sited.not_below_child hn hslot)).trans hn'
            rw [hcost] at hbase
            rcases of_foldedDeref hn hq hbase with ⟨-, value, disp, hvalue, hdisp⟩
            rcases hwrote.code with ⟨code, -, hcode⟩
            -- the price has looked at the literal that the second operand stands for
            have hos : ∃ reg, os = [.vreg reg, .imm value] := by
              cases hcode with
              | cons _ hscheme hrest =>
                  rcases hscheme.shows.exists_vreg with ⟨reg, rfl⟩
                  rcases hrest.exists_literal with ⟨value', os', rfl, hvalue'⟩
                  have hslot' : (Node.binary op lhs rhs).links[1]? = some rhs := rfl
                  have hrhs : a.Below Node.links id rhs := hbelow.toLinks.trans (.child hq hslot')
                  rw [hsame rhs hrhs, hvalue'] at hvalue
                  cases hvalue
                  cases List.eq_nil_of_length_eq_zero (Nat.succ.inj hrest.length_eq)
                  exact ⟨reg, rfl⟩
            rcases hos with ⟨reg, rfl⟩
            rw [hemit, hresult]
            exact Emitted.writes (hwrote.applied id .mem r.name)
              (emitted_derefFolded (s := s₁.applied id .mem r.name) R hgrafted₁ hng hqg hn₁
                ⟨q', hq', hshape, hchildren ▸ hall⟩ hdisp)
      | _ => cases hsum
  | _ => cases hkind

end Rules

/-- Every recorded reduction writes its code, or the code of what it comes to before it fails. -/
theorem writes (ht : Target.x64 settings = .ok t) (fuel : Nat) : AllWrite t g fuel := by
  induction fuel with
  | zero =>
      intro a site table id x _ _ hfuel
      exact absurd (hfuel [] id (.root id)) (Nat.not_lt_zero _)
  | succ fuel ih =>
      intro a site table id x hprepared hrecords hfuel hgtree hgalike s owner hintact hgrafted
      rcases Option.isSome_iff_exists.1 hrecords with ⟨choice, hbest⟩
      rcases hprepared.chosen id (.refl id) x choice hbest with
        ⟨r, base, hr, rfl, hbase, hmatches⟩
      rw [← hprepared.best_eq hintact] at hbest
      have hrules : t.grammar.rules[choice.rule]? = some r := by
        rw [(Target.built_of_build ht).1]
        exact hr
      have hmem := List.mem_of_getElem? hr
      have hlen : ∀ w m, a.Path Node.links id w m → w.length < fuel + 1 :=
        fun w m hw => Nat.lt_of_le_of_lt (Nat.le_add_right _ _) (hfuel w m hw)
      have hwriting : ∀ m, a.Below Node.children id m → m ≠ id → ∀ y, table.Records m y →
          Writing t g a site table fuel m y :=
        fun m hm hne y => ih.writing ht hprepared hlen hgtree hgalike hm hne
      rw [Target.run_reduce_some hbest hrules]
      rcases rule_call hmem with hcall | ⟨hpattern, hresult, hemit⟩
      · rcases rule_cases hmem hcall with ⟨y, hpattern, hy, hresult, hemit⟩ |
          ⟨k, xs, hpattern, htarget, hfollows⟩ | ⟨hpattern, hresult, hemit, hcost⟩
        · -- a chain rule: the same node, but not for a register
          have hbound : t.bound fuel r id = t.reduce fuel id y := by rw [Target.bound, hpattern]
          rw [hpattern] at hmatches
          have hfuel' : ∀ w m, a.Path Node.links id w m →
              w.length + (if y = .reg then 1 else 0) < fuel := by
            intro w m hw
            have hlen := hfuel w m hw
            rw [if_pos hresult] at hlen
            rw [if_neg hy]
            omega
          rw [hbound]
          refine (ih hprepared hmatches hfuel' hgtree hgalike s owner hintact hgrafted).bind ?_
          intro v s₁ htranslated
          rcases htranslated.value with ⟨o, hwrote, ho⟩
          rcases htranslated.grafted with ⟨owner₁, hgrafted₁, -⟩
          rw [hemit, hresult]
          exact Emitted.writes (hwrote.applied id .reg r.name)
            (emitted_copy (s := s₁.applied id .reg r.name)
              { select := t.selectWith (t.reduce fuel), reduce := t.reduce fuel } hgrafted₁ hy ho)
        · rw [hpattern] at hmatches
          rcases hmatches with ⟨n, hn, hkind, hsubs⟩
          rw [bound_node hpattern]
          have hng := (hgalike id (.refl id)).symm.trans hn
          refine follows_writes _ hprepared hn hng hbase hintact hgrafted hgtree hfollows htarget
            hkind (forall₂_of_matchesAll hsubs) ?_
          intro c hc y hrecords
          rcases List.mem_iff_getElem?.1 hc with ⟨slot, hslot⟩
          have hlink := Node.links_of_children hslot
          exact hwriting c (.child hn hslot)
            (hprepared.sited.ne_of_below_child hn hlink (.refl c)) y hrecords
        · rw [hpattern] at hmatches
          rcases hmatches with ⟨n, hn, hkind, hsubs⟩
          rw [bound_node hpattern]
          have hng := (hgalike id (.refl id)).symm.trans hn
          exact folded_writes _ hprepared hn hng hbase hintact hgrafted hemit hresult hcost hkind
            hsubs hgalike hwriting
      · -- the pattern binds nothing; the arguments are selected by the procedure
        rw [hpattern] at hmatches
        rcases hmatches with ⟨n, hn, hkind, -⟩
        rw [bound_node hpattern, hemit, hresult]
        cases n with
        | call callee args =>
            -- the rule is logged first, and then the arguments are selected
            have happlied : Wrote g [] [] s (s.applied id .reg r.name) := .idle rfl rfl rfl
            have hfuel' : ∀ w m, a.Path Node.links id w m → w.length < fuel := by
              intro w m hw
              have hlen := hfuel w m hw
              rw [if_pos hresult] at hlen
              omega
            refine ((call_writes ht ih (s := s.applied id .reg r.name) rfl hprepared hn hfuel'
              ⟨hintact.nodes, hintact.labels, hintact.size⟩ hgtree hgalike hgrafted).after
              happlied (List.forall_mem_nil _)).mono ?_
            exact fun v s' h => h.after happlied
        | _ => cases hkind

/-! ## Selecting -/

variable {root : NodeId}

/-- Selecting a tree emits its code if it succeeds; if not then the code of goals in the tree. -/
theorem selectRoot_writes (ht : Target.x64 settings = .ok t)
    (htree : s.arena.IsTree Node.links root) :
    Writes s.arena (s.arena.Below Node.links root) (Translated s.arena root .reg s) s
      ((t.selectRoot root).run s) := by
  by_cases hblocked : s.arena.Blocked root
  · rcases selectRoot_refuses ht htree.nearTree hblocked with ⟨n, table, trace, -, hrun⟩
    rw [hrun]
    exact ⟨[], [], .idle rfl rfl rfl, List.forall_mem_nil _⟩
  · rcases htree.nearTree with ⟨site, hroot, hsited⟩
    rcases exists_prepared ht hsited hroot with ⟨table, trace, hprepared, hrecords, hrun⟩
    have hfuel : ∀ w m, s.arena.Path Node.links root w m →
        w.length + (if Nonterminal.reg = .reg then 1 else 0) < t.nesting s.arena :=
      fun w m hw => Target.lt_nesting t htree.isDag hw
    have hlabeled : Wrote s.arena [] [] s { s with table, trace } := .idle rfl rfl rfl
    rw [hrun]
    refine ((writes ht _ hprepared (hrecords.2 hblocked) hfuel htree (fun _ _ => rfl)
      { s with table, trace } _ (.refl { s with table, trace } root)
      (.refl _)).after hlabeled (List.forall_mem_nil _)).bind ?_
    intro v s' htranslated
    rcases (htranslated.after hlabeled).value with ⟨o, hwrote, ho⟩
    exact ⟨⟨o, ⟨hwrote.code, hwrote.keeps⟩, ho⟩, htranslated.grafted⟩

end X64
end Codegen
