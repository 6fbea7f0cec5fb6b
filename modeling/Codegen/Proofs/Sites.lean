import Codegen.Proofs.Arguments
import Codegen.Proofs.Order

/-!
# Sites — trees that share leaves

Labeling comes to a node by a word, the way to it from the root or from the call argument that the
node is a part of.  Where nodes are shared it may come to one again.  If the node is a leaf and the
word is the same then what it finds there is what it would have left there, so it does no harm that
other parts of the tree have been labeled before.

* `Arena.Sited`     : labeling comes to each node by one word, and only leaves are shared
* `Arena.NearTree`  : a tree but for such leaves
* `X64.Seen`        : a leaf is labeled by its word
* `X64.Ripens`      : what becomes of the label of a leaf
-/

namespace Codegen

/-! ## Arenas -/

/-- The word that a way is read by from the last call on; until there is one, it continues `u`. -/
def wordSince (u : List Symbol) : List Symbol → List Symbol
  | k :: c :: w => wordSince (if k = .kind .call then [] else u ++ [k, c]) w
  | _ => u

namespace Arena

variable {a a' : Arena} {site : NodeId → List Symbol} {id c m : NodeId} {n : Node} {slot : Nat}
  {u v w : List Symbol}

theorem Path.wordSince_append (h : a.Path Node.links id v m) (u w : List Symbol) :
    wordSince u (v ++ w) = wordSince (wordSince u v) w := by
  induction h generalizing u with
  | root => rfl
  | step _ _ _ ih => exact ih _

/-- The node leads nowhere. -/
def Leaf (a : Arena) (m : NodeId) : Prop := ∃ n, a.get? m = some n ∧ n.links = []

theorem Leaf.of_get? (h : a.Leaf m) (hm : a'.get? m = a.get? m) : a'.Leaf m := by
  rcases h with ⟨n, hn, hleaf⟩
  exact ⟨n, hm.trans hn, hleaf⟩

theorem not_leaf (hn : a.get? id = some n) (hc : n.links[slot]? = some c) : ¬ a.Leaf id := by
  rintro ⟨n', hn', hleaf⟩
  cases hn.symm.trans hn'
  rw [hleaf] at hc
  cases hc

/-- The nodes below `id` are in the arena, those that are reached in several ways are leaves, and
labeling comes to each by the word `site`: that of the node above and the slot, or the empty one for
the argument of a call. -/
structure Sited (a : Arena) (site : NodeId → List Symbol) (id : NodeId) : Prop where
  inside : ∀ m, a.Below Node.links id m → m < a.size
  ways : ∀ v w m, a.Path Node.links id v m → a.Path Node.links id w m → v = w ∨ a.Leaf m
  child : ∀ m n slot c, a.Below Node.links id m → a.get? m = some n →
    n.children[slot]? = some c → site c = site m ++ [.kind n.kind, .child slot]
  argument : ∀ m callee args c, a.Below Node.links id m → a.get? m = some (.call callee args) →
    c ∈ args → site c = []

/-- A tree but for shared leaves, which labeling comes to by the same word each time. -/
def NearTree (a : Arena) (root : NodeId) : Prop := ∃ site, site root = [] ∧ a.Sited site root

/-- In a tree the only way to a node tells its word. -/
theorem IsTree.nearTree (h : IsTree Node.links a id) : a.NearTree id := by
  classical
  let site := fun m => if hm : a.Below Node.links id m then wordSince [] hm.choose else []
  have hsite : ∀ {w m}, a.Path Node.links id w m → site m = wordSince [] w := by
    intro w m hw
    have hm : a.Below Node.links id m := ⟨w, hw⟩
    simp only [site, dif_pos hm]
    rw [h.unique _ _ m hm.choose_spec hw]
  refine ⟨site, hsite (.root id), h.inside, fun v w m hv hw => .inl (h.unique v w m hv hw), ?_, ?_⟩
  · rintro m n slot c ⟨w, hw⟩ hn hc
    have hcall : n.kind ≠ .call := by
      rintro hkind
      cases n <;> cases hkind
      cases hc
    rw [hsite (hw.append (.step hn (Node.links_of_children hc) (.root c))), hsite hw,
      hw.wordSince_append]
    simp [wordSince, hcall]
  · rintro m callee args c ⟨w, hw⟩ hn hc
    rcases List.mem_iff_getElem?.1 hc with ⟨slot, hslot⟩
    rw [hsite (hw.append (.step (n := .call callee args) hn hslot (.root c))),
      hw.wordSince_append]
    rfl

namespace Sited

theorem of_below (h : a.Sited site id) (hc : a.Below Node.links id c) : a.Sited site c where
  inside m hm := h.inside m (hc.trans hm)
  ways v w m hv hw := by
    rcases hc with ⟨u, hu⟩
    exact (h.ways _ _ m (hu.append hv) (hu.append hw)).imp_left List.append_cancel_left
  child m n slot c' hm := h.child m n slot c' (hc.trans hm)
  argument m callee args c' hm := h.argument m callee args c' (hc.trans hm)

/-- A way that came back could be taken once more, and leaves lead nowhere. -/
theorem isDag (h : a.Sited site id) : IsDag Node.links a id where
  inside := h.inside
  acyclic m w hm hw := by
    rcases hm with ⟨u, hu⟩
    rcases h.ways u (u ++ w) m hu (hu.append hw) with heq | ⟨n, hn, hleaf⟩
    · exact List.self_eq_append_right.1 heq
    · exact (hw.of_leaf hn hleaf).1

theorem not_below_child (h : a.Sited site id) (hn : a.get? id = some n)
    (hc : n.links[slot]? = some c) : ¬ a.Below Node.links c id :=
  h.isDag.not_below_child hn hc

theorem ne_of_below_child (h : a.Sited site id) (hn : a.get? id = some n)
    (hc : n.links[slot]? = some c) (hm : a.Below Node.links c m) : m ≠ id := by
  rintro rfl
  exact h.not_below_child hn hc hm

/-- Only leaves are below two children. -/
theorem leaf_of_slots (h : a.Sited site id) (hn : a.get? id = some n) {slot' : Nat} {c' : NodeId}
    (hc : n.links[slot]? = some c) (hc' : n.links[slot']? = some c') (hne : slot ≠ slot')
    (hm : a.Below Node.links c m) (hm' : a.Below Node.links c' m) : a.Leaf m := by
  rcases hm with ⟨v, hv⟩
  rcases hm' with ⟨w, hw⟩
  refine (h.ways _ _ m (.step hn hc hv) (.step hn hc' hw)).resolve_left fun heq => ?_
  cases heq
  exact hne rfl

theorem site_eq (h : a.Sited site id) (hw : a.Path Node.children id w m) :
    site m = site id ++ w := by
  induction hw with
  | root => rw [List.append_nil]
  | @step id c m n slot w hn hc _ ih =>
      have hbelow : a.Below Node.links id c := (Below.child hn hc).toLinks
      rw [ih (h.of_below hbelow), h.child id n slot c (.refl id) hn hc, List.append_assoc]
      rfl

/-- Labeling comes to the nodes of one call argument by different words. -/
theorem isTree (h : a.Sited site id) : IsTree Node.children a id where
  inside m hm := h.inside m hm.toLinks
  unique _ _ _ hv hw := List.append_cancel_left ((h.site_eq hv).symm.trans (h.site_eq hw))

end Sited

theorem Alike.sited (h : Alike Node.links a a' id) (hsize : a.size ≤ a'.size)
    (hsited : a.Sited site id) : a'.Sited site id where
  inside m hm := Nat.lt_of_lt_of_le (hsited.inside m (h.below_iff.1 hm)) hsize
  ways _ _ m hv hw := by
    have hv := h.path_iff.1 hv
    exact (hsited.ways _ _ m hv (h.path_iff.1 hw)).imp_right fun hl => hl.of_get? (h m ⟨_, hv⟩)
  child m n slot c hm hn := by
    have hm := h.below_iff.1 hm
    exact hsited.child m n slot c hm ((h m hm).symm.trans hn)
  argument m callee args c hm hn := by
    have hm := h.below_iff.1 hm
    exact hsited.argument m callee args c hm ((h m hm).symm.trans hn)

end Arena

/-! ## Labels of leaves -/

namespace X64

section

variable {a a' : Arena} {m : NodeId} {n : Node} (hn : a.get? m = some n) (hn' : a'.get? m = some n)
  (hleaf : n.children = [])
include hn hn' hleaf

/-- At a node without children the price of a rule depends on the node alone. -/
theorem base?_leaf {r : Rule} (hr : r ∈ rules) : r.cost.base? a' m = r.cost.base? a m := by
  have hnode : a'.node m = a.node m := by
    rw [Arena.node_eq_ok_iff.2 hn, Arena.node_eq_ok_iff.2 hn']
  rcases r with ⟨name, p, x, cost, emit⟩
  cases form hr with
  | literal | wideLiteral | call =>
      simp only [Cost.base?, Price.literal, Price.wideLiteral, Price.call, hnode]
  | binary y =>
      cases y <;> simp only [Cost.base?, binaryPrice, Price.binaryReg, Price.binaryImm,
        Price.binaryMem, Price.byOperator, hnode]
  | derefFolded =>
      simp [Cost.base?, Price.foldedDeref, Arena.child?, hnode, Arena.node_eq_ok_iff.2 hn, hleaf,
        pure, Except.pure, bind, Except.bind]
  | _ => rfl

mutual

/-- So do its derivations. -/
theorem derives_of_leaf : {x : Nonterminal} → {k : Nat} → grammar.Derives a m x k →
    grammar.Derives a' m x k
  | _, _, .rule hr hbase hcovers =>
      .rule hr ((base?_leaf hn hn' hleaf hr).trans hbase) (covers_of_leaf hcovers)

theorem covers_of_leaf : {p : Pattern} → {k : Nat} → grammar.Covers a p m k →
    grammar.Covers a' p m k
  | _, _, .nt hderives => .nt (derives_of_leaf hderives)
  | _, _, .node hget hkind hall => by
      cases hn.symm.trans hget
      rw [hleaf] at hall
      cases hall
      refine .node hn' hkind ?_
      rw [hleaf]
      exact .nil

end

theorem price?_leaf (table : LabelTable) {r : Rule} (hr : r ∈ rules) :
    table.price? a' r m = table.price? a r m := by
  have hbound : table.bindingCost? a' r.pattern m = table.bindingCost? a r.pattern m := by
    cases r.pattern with
    | nt x => rfl
    | node k subs =>
        rw [LabelTable.bindingCost?_node hn, LabelTable.bindingCost?_node hn', hleaf]
        cases subs <;> rfl
  rw [LabelTable.price?, LabelTable.price?, base?_leaf hn hn' hleaf hr, hbound]

/-- What labeling leaves at such a node depends on the node alone. -/
theorem labeled_of_leaf {t : Target} (hbuilt : t.Built) (hgrammar : t.grammar = grammar)
    {table : LabelTable} {w : List Symbol} (h : t.Labeled a table w m) :
    t.Labeled a' table w m where
  label := h.label
  exact := by
    rw [Target.exact_leaf_iff hbuilt hn' hleaf, ← Target.exact_leaf_iff hbuilt hn hleaf]
    exact h.exact
  realized := by
    intro x c hc
    rcases h.realized x c hc with ⟨r, base, k, hr, hresult, hbase, hcovers, hcost⟩
    rw [hgrammar] at hr hcovers ⊢
    have hmem := List.mem_of_getElem? hr
    exact ⟨r, base, k, hr, hresult, (base?_leaf hn hn' hleaf hmem).trans hbase,
      covers_of_leaf hn hn' hleaf hcovers, hcost⟩
  stable := by
    intro r hr hmatches k hk
    rw [hgrammar] at hr
    rw [price?_leaf hn hn' hleaf table hr] at hk
    refine h.stable r (hgrammar ▸ hr) ?_ k hk
    generalize r.pattern = p at hmatches ⊢
    cases p with
    | nt x => exact hmatches
    | node kind subs =>
        rcases hmatches with ⟨n', hget, hkind, hall⟩
        cases hn'.symm.trans hget
        refine ⟨n, hn, hkind, ?_⟩
        rw [hleaf] at hall ⊢
        cases subs with
        | nil => trivial
        | cons => exact hall.elim

end

variable {t : Target} {a a' : Arena} {site : NodeId → List Symbol}
  {table table' table'' : LabelTable} {m : NodeId}

/-- Labeling has come to the leaf by its word. -/
def Seen (t : Target) (a : Arena) (site : NodeId → List Symbol) (table : LabelTable) (m : NodeId) :
    Prop :=
  a.Leaf m ∧ t.Labeled a table (site m) m

/-- Labeling may come to the node: it has not yet done so, or it has to a leaf. -/
def Due (t : Target) (a : Arena) (site : NodeId → List Symbol) (table : LabelTable) (m : NodeId) :
    Prop :=
  table.label? m = some (.blank t.grammar.size) ∨ Seen t a site table m

/-- The label of a node is the same; or labeling has come to it, if not for the first time then
without a change of what is recorded there. -/
def Ripens (t : Target) (a : Arena) (site : NodeId → List Symbol) (table table' : LabelTable)
    (m : NodeId) : Prop :=
  table'.label? m = table.label? m ∨
    Due t a site table m ∧ Seen t a site table' m ∧
      (Seen t a site table m → table'.best m = table.best m)

theorem Seen.congr (h : Seen t a site table m) (hsame : table'.label? m = table.label? m) :
    Seen t a site table' m := by
  rcases h with ⟨⟨n, hn, hleaf⟩, hlabeled⟩
  refine ⟨⟨n, hn, hleaf⟩, hlabeled.congr fun k hk => ?_⟩
  rwa [hk.toLinks.eq_of_leaf hn hleaf]

theorem Due.congr (h : Due t a site table m) (hsame : table'.label? m = table.label? m) :
    Due t a site table' m :=
  h.imp hsame.trans fun hseen => hseen.congr hsame

theorem Due.awaits (h : Due t a site table m) : t.Awaits a table (site m) m := by
  refine h.imp_right ?_
  rintro ⟨⟨n, hn, hleaf⟩, hlabeled⟩
  exact ⟨⟨n, hn, Node.children_of_links hleaf⟩, hlabeled⟩

namespace Ripens

theorem due (h : Ripens t a site table table' m) (hdue : Due t a site table m) :
    Due t a site table' m := by
  rcases h with hsame | ⟨-, hseen, -⟩
  · exact hdue.congr hsame
  · exact .inr hseen

theorem seen (h : Ripens t a site table table' m) (hseen : Seen t a site table m) :
    Seen t a site table' m ∧ table'.best m = table.best m := by
  rcases h with hsame | ⟨-, hseen', hbest⟩
  · exact ⟨hseen.congr hsame, LabelTable.best_congr hsame⟩
  · exact ⟨hseen', hbest hseen⟩

theorem trans (h : Ripens t a site table table' m) (h' : Ripens t a site table' table'' m) :
    Ripens t a site table table'' m := by
  rcases h with hsame | ⟨hdue, hseen, hbest⟩
  · rcases h' with hsame' | ⟨hdue', hseen', hbest'⟩
    · exact .inl (hsame'.trans hsame)
    · refine .inr ⟨hdue'.congr hsame.symm, hseen', fun hseen => ?_⟩
      rw [hbest' (hseen.congr hsame), LabelTable.best_congr hsame]
  · rcases Ripens.seen h' hseen with ⟨hseen', hbest'⟩
    exact .inr ⟨hdue, hseen', fun h => hbest'.trans (hbest h)⟩

end Ripens

section

variable (hbuilt : t.Built) (hgrammar : t.grammar = grammar) (hm : a'.get? m = a.get? m)
include hbuilt hgrammar hm

theorem Seen.of_get? (h : Seen t a site table m) : Seen t a' site table m := by
  rcases h with ⟨⟨n, hn, hleaf⟩, hlabeled⟩
  exact ⟨⟨n, hm.trans hn, hleaf⟩,
    labeled_of_leaf hn (hm.trans hn) (Node.children_of_links hleaf) hbuilt hgrammar hlabeled⟩

theorem Due.of_get? (h : Due t a site table m) : Due t a' site table m :=
  h.imp_right (Seen.of_get? hbuilt hgrammar hm)

theorem Ripens.of_get? (h : Ripens t a site table table' m) : Ripens t a' site table table' m := by
  refine h.imp_right ?_
  rintro ⟨hdue, hseen, hbest⟩
  exact ⟨hdue.of_get? hbuilt hgrammar hm, hseen.of_get? hbuilt hgrammar hm,
    fun h => hbest (h.of_get? hbuilt hgrammar hm.symm)⟩

end

end X64
end Codegen
