import GhidraDecompiler.Block.VirtualRoot
import GhidraDecompiler.Block.EdgeLabels
import GhidraDecompiler.Lib.Postorder

namespace GhidraDecompiler.Block

open Fallible Flow

variable {d d' : Blocks} {list : List BlockId} {r top : BlockId} {o : Fingers}

/-- Assigning one immediate dominator to several blocks. -/
theorem setImmedDoms_spec {l : List BlockId} (bs : List BlockId) (dom : Option BlockId)
    (hlive : ∀ b ∈ bs, d.Live b) (hsub : bs ⊆ l) :
    ∃ d', bs.foldlM (fun d b => d.modify b (setImmedDom dom)) d = .ok d' ∧ DomOnly l d d' ∧
      ∀ b, (blk d' b).immedDom = if b ∈ bs then dom else (blk d b).immedDom := by
  refine foldlM_total (f := fun (d : Blocks) b => d.modify b (setImmedDom dom))
    (fun before d' => DomOnly l d d' ∧ ∀ b, (blk d' b).immedDom = if b ∈ before then dom else (blk d b).immedDom)
    bs ?_ ⟨.refl l d, by simp⟩
  intro before c after hl d₁ hs
  have hc : c ∈ bs := by simp [hl]
  have hlive₁ : d₁.Live c := (hs.1.live c).mpr (hlive c hc)
  refine ⟨_, Arena.modify_eq _ hlive₁, hs.1.trans (.update (hsub hc) d₁ dom), fun b => ?_⟩
  by_cases hbc : b = c
  · subst hbc
    rw [blk_update_self hlive₁, setImmedDom, if_pos (by simp)]
  · rw [blk_update_ne hbc, hs.2 b]
    simp [hbc]

/-- The edges of the graph of a list of blocks, together with edges from its
first block to all roots. -/
def RootedEdge (d : Blocks) (list rootlist : List BlockId) (r a b : BlockId) : Prop :=
  b ∈ list ∧ (a ∈ points d .into b ∨ a = r ∧ b ∈ rootlist ∧ b ≠ r)

/-- The two assignments before the rounds: the root becomes its own immediate
dominator and that of its successors. -/
theorem growing_start {E : BlockId → BlockId → Prop} (hp : Placed d list r top o)
    (hord : Ordered E r (· ∈ list) list.idxOf) (hnone : ∀ b ∈ list, (blk d b).immedDom = none)
    (houts : points d .outof top ⊆ list) (hr : r = top ∨ r ∈ points d .outof top)
    (hE : ∀ b ∈ points d .outof top, b ≠ r → E r b)
    (hpreds : ∀ b ∈ list, b ≠ r → b ∉ points d .outof top → ∀ a, E a b ↔ a ∈ points d .into b) :
    ∃ d₁ d₂, d.modify top (setImmedDom (some top)) = .ok d₁ ∧
      (blk d₁ top).outofthis.foldlM (fun d edge => d.modify edge.point (setImmedDom (some top))) d₁ = .ok d₂ ∧
      Growing E list r top o 1 d₂ ∧ DomOnly (top :: list) d d₂ ∧
      ∀ b ∈ list, (blk d₂ b).immedDom = if b = top ∨ b ∈ points d .outof top then some top else none := by
  have honly₁ : DomOnly (top :: list) d (d.update top (setImmedDom (some top))) := .update (by simp) d _
  obtain ⟨d₂, hrun, honly₂, hdom⟩ := setImmedDoms_spec (d := d.update top (setImmedDom (some top)))
    (l := top :: list) (points d .outof top) (some top)
    (fun b hb => (honly₁.live b).mpr (hp.live b (houts hb))) (fun b hb => List.mem_cons_of_mem _ (houts hb))
  have honly := honly₁.trans honly₂
  have hdom' : ∀ b ∈ list, (blk d₂ b).immedDom = if b = top ∨ b ∈ points d .outof top then some top else none := by
    intro b hb
    rw [hdom b, blk_update hp.top_live]
    by_cases hout : b ∈ points d .outof top
    · simp [hout]
    · by_cases htop : b = top
      · simp [htop, setImmedDom]
      · simp [hout, htop, hnone b hb]
  have hpar : ∀ b a, domParent d₂ list r top b = some a → b ∈ list ∧ b ≠ r ∧ b ∈ points d .outof top ∧ a = r := by
    intro b a hba
    have hb : b ∈ list ∧ b ≠ r := by
      by_contra hn
      simp [domParent, hn] at hba
    rw [domParent, if_pos hb, hdom' b hb.1] at hba
    have htop : b ≠ top := fun heq => hp.top_eq.elim (fun ht => hb.2 (heq.trans ht)) fun hn => hn (heq ▸ hb.1)
    by_cases hout : b ∈ points d .outof top
    · simp only [hout, or_true, if_true, Option.map_some, Option.some_inj] at hba
      exact ⟨hb.1, hb.2, hout, hba.symm⟩
    · simp [hout, htop] at hba
  refine ⟨_, d₂, Arena.modify_eq _ hp.top_live, ?_, ⟨honly.placed hp, hord, ?_, ?_, ?_⟩, honly, hdom'⟩
  · rw [← hrun, ← honly₁.points, points, List.foldlM_map]
    rfl
  · refine .start hord (by simp [domParent]) (fun b a hba => ?_) (fun b hb hlt => ?_) fun b hb hbr => ?_
    · obtain ⟨-, hbr, hout, rfl⟩ := hpar b a hba
      exact ⟨rfl, hE b hout hbr⟩
    · exact (List.idxOf_inj hb).mp (by rw [hp.idxOf_root]; omega)
    · rw [hp.idxOf_root]
      exact Nat.pos_of_ne_zero fun h0 => hbr ((List.idxOf_inj hb).mp (by rw [h0, hp.idxOf_root]))
  · rw [hdom' r hp.root_mem, if_pos hr]
  · intro b hb hbr hbt a
    rw [honly.points]
    refine hpreds b hb hbr (fun hout => hbt ?_) a
    rw [hdom' b hb, if_pos (.inr hout)]

/-- The middle part of the function, from the choice of the root to the end of
the rounds. -/
theorem tree_spec {E : BlockId → BlockId → Prop} (hp : Placed d list r top o)
    (hord : Ordered E r (· ∈ list) list.idxOf) (hnone : ∀ b ∈ list, (blk d b).immedDom = none)
    (houts : points d .outof top ⊆ list) (hr : r = top ∨ r ∈ points d .outof top)
    (hE : ∀ b ∈ points d .outof top, b ≠ r → E r b)
    (hpreds : ∀ b ∈ list, b ≠ r → b ∉ points d .outof top → ∀ a, E a b ↔ a ∈ points d .into b)
    {l : List BlockId} (hlist : list = r :: l)
    (hpost : o.postorder.dropLast.reverse = l ∨ o.postorder.dropLast.reverse = r :: l) :
    ∃ d₁ d₂ d₃, d.modify top (setImmedDom (some top)) = .ok d₁ ∧
      (blk d₁ top).outofthis.foldlM (fun d edge => d.modify edge.point (setImmedDom (some top))) d₁ = .ok d₂ ∧
      loop (o.round top) (list.length * (list.length + 1) + 2) (d₂, none) = .ok d₃ ∧
      d₁.Live top ∧ DomOnly (top :: list) d d₃ ∧ (blk d₃ r).immedDom = some top ∧
      (∀ b ∈ list, top ∉ list → ((blk d₃ b).immedDom = some top ↔ b ∈ points d .outof top)) ∧
      ∀ b ∈ list, b ≠ r → ∃ a, domParent d₃ list r top b = some a ∧ IsIdom E r a b := by
  obtain ⟨d₁, d₂, hrun₁, hrun₂, hgrow, honly, hdom⟩ := growing_start hp hord hnone houts hr hE hpreds
  obtain ⟨d₃, hrun₃, hmoved, hroot, hidom⟩ := hgrow.rounds_spec hlist hpost
  refine ⟨d₁, d₂, d₃, hrun₁, hrun₂, hrun₃, ?_, honly.trans (hmoved.mono (List.subset_cons_self _ _)), hroot,
    fun b hb ht => ?_, fun b hb hbr => ?_⟩
  · rw [Arena.modify_eq _ hp.top_live, Except.ok.injEq] at hrun₁
    simp [← hrun₁, hp.top_live]
  · have hbt : b ≠ top := fun heq => ht (heq ▸ hb)
    have hiff : (blk d₂ b).immedDom = some top ↔ b ∈ points d .outof top := by
      rw [hdom b hb]
      by_cases hout : b ∈ points d .outof top <;> simp [hout, hbt]
    exact ⟨fun h => hiff.mp (hmoved.new ht b h), fun h => hmoved.keep b (hiff.mpr h)⟩
  · exact hidom b ((List.mem_cons.mp (hlist ▸ hb)).resolve_left hbr)

theorem getElem?_reverse_sub {l : List BlockId} {i : Nat} {b : BlockId} (h : l[i]? = some b) (l' : List BlockId) :
    (l.reverse ++ l')[l.length - 1 - i]? = some b := by
  obtain ⟨hlt, -⟩ := List.getElem?_eq_some_iff.mp h
  rw [List.getElem?_append_left (by simp; omega), List.getElem?_reverse (by omega),
    show l.length - 1 - (l.length - 1 - i) = i by omega, h]

/-- What the computation of dominators is given: blocks with their positions
as index, entered from the root list, the first block being one of the roots. -/
structure DomInput (d : Blocks) (list rootlist : List BlockId) (r : BlockId) : Prop where
  reciprocal : Reciprocal d
  head : list.head? = some r
  nodup : list.Nodup
  inside : ∀ b ∈ list, ∀ dir, points d dir b ⊆ list
  list_live : ∀ b ∈ list, d.Live b
  index : ∀ (i : Nat) b, list[i]? = some b → (blk d b).index = i
  roots_nodup : rootlist.Nodup
  roots_mem : rootlist ⊆ list
  root_mem : r ∈ rootlist
  forward : ∀ b ∈ list, b ≠ r → ∃ a, RootedEdge d list rootlist r a b ∧
    list.idxOf a < list.idxOf b

namespace DomInput

variable {rootlist : List BlockId}

theorem ordered (h : DomInput d list rootlist r) :
    Ordered (RootedEdge d list rootlist r) r (· ∈ list) list.idxOf := by
  refine ⟨List.mem_of_mem_head? h.head, fun a b hab => ⟨?_, hab.1⟩, fun a b ha hb heq => (List.idxOf_inj ha).mp heq, h.forward⟩
  rcases hab.2 with ha | ⟨rfl, -⟩
  · exact h.inside b hab.1 .into ha
  · exact List.mem_of_mem_head? h.head

/-- The result: nothing but the immediate dominators has changed, the roots
have none, and every other block has the one in the graph in which the first
block stands for the virtual root. -/
structure Result (d : Blocks) (list rootlist : List BlockId) (r : BlockId) (d' : Blocks) : Prop where
  live : ∀ b, d'.Live b ↔ d.Live b
  same : ∀ b, bare d' b = bare d b
  root : ∀ b ∈ rootlist, (blk d' b).immedDom = none
  idom : ∀ b ∈ list, b ∉ rootlist → ∃ a, (blk d' b).immedDom = some a ∧ IsIdom (RootedEdge d list rootlist r) r a b

theorem plain_spec (h : DomInput d list rootlist r) (hroots : rootlist = [r])
    (hnone : ∀ b ∈ list, (blk d b).immedDom = none) :
    ∃ d', buildTree d list list.reverse none = .ok d' ∧
      Result d list rootlist r d' := by
  obtain ⟨l, hl⟩ := List.head?_eq_some_iff.mp h.head
  have hrm : r ∈ list := List.mem_of_mem_head? h.head
  have hplaced : Placed d list r r ⟨list.reverse, list.length - 1⟩ :=
    ⟨h.head, h.nodup, h.list_live, h.index, h.list_live r hrm, by simpa using h.index 0 r (List.head?_eq_getElem? ▸ h.head),
      .inl rfl, rfl, fun i b hb => by simpa using getElem?_reverse_sub hb []⟩
  have hedge (a b : BlockId) (hb : b ∈ list) : RootedEdge d list rootlist r a b ↔ a ∈ points d .into b := by
    simp only [RootedEdge, hb, hroots, List.mem_singleton, true_and, or_iff_left_iff_imp]
    tauto
  obtain ⟨d₁, d₂, d₃, hrun₁, hrun₂, hrun₃, hlive₁, honly, hroot, -, hidom⟩ := tree_spec hplaced h.ordered hnone
    (h.inside r hrm .outof) (.inl rfl)
    (fun b hb _ => (hedge r b (h.inside r hrm .outof hb)).mpr (h.reciprocal.mem_points_op.mp hb))
    (fun b hb _ _ a => hedge a b hb) hl (.inl (by simp [hl]))
  have hlive₃ : d₃.Live r := (honly.live r).mpr (h.list_live r hrm)
  have honly' := honly.trans (.update (List.mem_cons_self ..) d₃ none)
  refine ⟨d₃.update r (setImmedDom none), ?_, honly'.live, fun b => ?_, fun b hb => ?_, fun b hb hbr => ?_⟩
  · have hlast : list.reverse.getLast? = some r := by simp [hl]
    simp only [buildTree, hlast, expect_some, ok_bind, hrun₁, get_of_live hlive₁, hrun₂, hrun₃]
    exact Arena.modify_eq _ hlive₃
  · rw [bare, honly'.blk_eq b]
    rfl
  · rw [hroots, List.mem_singleton] at hb
    subst hb
    rw [blk_update_self hlive₃]
    rfl
  · have hbr : b ≠ r := fun heq => hbr (heq ▸ h.root_mem)
    obtain ⟨a, ha, hia⟩ := hidom b hb hbr
    refine ⟨a, ?_, hia⟩
    rw [blk_update_ne hbr]
    rw [domParent, if_pos ⟨hb, hbr⟩, Option.map_eq_some_iff] at ha
    obtain ⟨x, hx, hxa⟩ := ha
    split at hxa
    next heq => rw [hx, heq, hxa]
    next => rw [hx, hxa]

theorem virtual_spec (h : DomInput d list rootlist r) (hnone : ∀ b ∈ list, (blk d b).immedDom = none) {s : Blocks}
    {vr : BlockId} (hs : WithRoot d vr rootlist s) (hdom : ∀ b, (blk s b).immedDom = (blk d b).immedDom) :
    ∃ d', buildTree s list (list.reverse ++ [vr]) (some vr) = .ok d' ∧ Result d list rootlist r d' := by
  obtain ⟨l, hl⟩ := List.head?_eq_some_iff.mp h.head
  have hvl : vr ∉ list := fun hm => hs.ne_of_live (h.list_live vr hm) rfl
  have hplaced : Placed s list r vr ⟨list.reverse ++ [vr], list.length - 1⟩ :=
    ⟨h.head, h.nodup, fun b hb => (hs.live b).mpr (.inl (h.list_live b hb)),
      fun i b hb => (hs.index_eq (h.list_live b (List.mem_of_getElem? hb))).trans (h.index i b hb), hs.live_root,
      hs.index_root, .inr hvl, rfl, fun i b hb => getElem?_reverse_sub hb _⟩
  have houts : points s .outof vr = rootlist := by
    rw [points, FlowBlock.edges, hs.outofthis, List.map_map]
    exact List.map_id _
  have hpreds (a b : BlockId) (hb : b ∈ list) (hbr : b ∉ rootlist) :
      RootedEdge d list rootlist r a b ↔ a ∈ points s .into b := by
    have hinto : points s .into b = points d .into b := by
      simp only [points, hs.edges_eq (h.list_live b hb) hbr]
    simp [RootedEdge, hb, hbr, hinto]
  obtain ⟨d₁, d₂, d₃, hrun₁, hrun₂, hrun₃, hlive₁, honly, hroot, hkept, hidom⟩ := tree_spec hplaced h.ordered
    (fun b hb => (hdom b).trans (hnone b hb)) (houts ▸ h.roots_mem) (.inr (houts ▸ h.root_mem))
    (fun b hb hbr => ⟨h.roots_mem (houts ▸ hb), .inr ⟨rfl, houts ▸ hb, hbr⟩⟩)
    (fun b hb _ hbr a => hpreds a b hb (houts ▸ hbr)) hl (.inr (by simp [hl]))
  obtain ⟨d', hrun, hlive, hsame, hdom'⟩ := dismissVirtualRoot_spec h.roots_nodup (hs.of_domOnly honly) h.list_live
  have hiff {b : BlockId} (hb : b ∈ list) : (blk d₃ b).immedDom = some vr ↔ b ∈ rootlist := by
    rw [hkept b hb hvl, houts]
  refine ⟨d', ?_, hlive, hsame, fun b hb => ?_, fun b hb hbr => ?_⟩
  · simp only [buildTree, List.getLast?_concat, expect_some, ok_bind, hrun₁, get_of_live hlive₁, hrun₂, hrun₃, hrun]
  · have hbl := h.roots_mem hb
    rw [hdom' b (h.list_live b hbl), if_pos ⟨hbl, (hiff hbl).mpr hb⟩]
  · have hne : b ≠ r := fun heq => hbr (heq ▸ h.root_mem)
    obtain ⟨a, ha, hia⟩ := hidom b hb hne
    refine ⟨a, ?_, hia⟩
    rw [hdom' b (h.list_live b hb), if_neg fun hand => hbr ((hiff hb).mp hand.2)]
    rw [domParent, if_pos ⟨hb, hne⟩, Option.map_eq_some_iff] at ha
    obtain ⟨x, hx, hxa⟩ := ha
    rw [if_neg (by rintro rfl; exact hbr ((hiff hb).mp hx))] at hxa
    rw [hx, hxa]

/-- The choice of the root and everything behind it. -/
theorem placed_spec (h : DomInput d list rootlist r) (hnone : ∀ b ∈ list, (blk d b).immedDom = none) :
    ∃ d', (do
        let (d, postorder, virtualroot) ← placeRoot d list rootlist
        buildTree d list postorder virtualroot) = .ok d' ∧ Result d list rootlist r d' := by
  obtain ⟨l, hl⟩ := List.head?_eq_some_iff.mp h.head
  obtain ⟨s, hcreate, hs, hdom⟩ := blockCreateVirtualRoot_spec h.roots_nodup fun b hb => h.list_live b (h.roots_mem hb)
  obtain ⟨d', hbuild, hres⟩ := h.virtual_spec hnone hs hdom
  have hlast : list.reverse.getLast? = some r := by simp [hl]
  have hr := h.list_live r (List.mem_of_mem_head? h.head)
  by_cases hmany : 1 < rootlist.length
  · refine ⟨d', ?_, hres⟩
    simp [placeRoot, hmany, hcreate, get_of_live hs.live_root, hs.intothis_root, hbuild]
  · have hone : rootlist = [r] := by
      match hrl : rootlist, h.root_mem with
      | [x], hm => rw [List.mem_singleton.mp hm]
      | x :: y :: rest, _ => simp at hmany
    by_cases hinto : (blk d r).intothis = []
    · obtain ⟨d'', hbuild', hres'⟩ := h.plain_spec hone hnone
      refine ⟨d'', ?_, hres'⟩
      simp [placeRoot, hmany, hlast, get_of_live hr, hinto, hbuild']
    · refine ⟨d', ?_, hres⟩
      subst hone
      simp [placeRoot, hlast, get_of_live hr, hinto, hcreate, hbuild]

theorem of_domOnly (h : DomInput d list rootlist r) (honly : DomOnly list d d') : DomInput d' list rootlist r := by
  have hedge (dir : Dir) (c : BlockId) (j : Nat) : edge? d' dir c j = edge? d dir c j := by
    rw [edge?, honly.edges, edge?]
  refine ⟨h.reciprocal.congr hedge, h.head, h.nodup, fun b hb dir => by rw [honly.points]; exact h.inside b hb dir,
    fun b hb => (honly.live b).mpr (h.list_live b hb), fun i b hb => (honly.index b).trans (h.index i b hb),
    h.roots_nodup, h.roots_mem, h.root_mem, fun b hb hbr => ?_⟩
  obtain ⟨a, ⟨hal, ha⟩, hlt⟩ := h.forward b hb hbr
  exact ⟨a, ⟨hal, by rwa [honly.points]⟩, hlt⟩

theorem Result.of_domOnly {d₁ : Blocks} (honly : DomOnly list d d₁) (h : Result d₁ list rootlist r d') :
    Result d list rootlist r d' := by
  have hE : RootedEdge d₁ list rootlist r = RootedEdge d list rootlist r := by
    ext a b
    rw [RootedEdge, honly.points, RootedEdge]
  refine ⟨fun b => (h.live b).trans (honly.live b), fun b => (h.same b).trans ?_, h.root, hE ▸ h.idom⟩
  rw [bare, honly.blk_eq b]
  rfl

theorem calcForwardDominator_spec {graph : BlockId} (hg : d.Live graph) (h : DomInput d (blk d graph).list rootlist r) :
    ∃ d', blockCalcForwardDominator d graph rootlist = .ok d' ∧ Result d (blk d graph).list rootlist r d' := by
  obtain ⟨d₁, hclear, honly, hdom⟩ := setImmedDoms_spec (l := (blk d graph).list) _ none h.list_live (fun _ hb => hb)
  obtain ⟨d', hrun, hres⟩ := (h.of_domOnly honly).placed_spec fun b hb => by rw [hdom b, if_pos hb]
  have hne : (blk d graph).list ≠ [] := by
    intro hnil
    have := h.head
    simp [hnil] at this
  refine ⟨d', ?_, hres.of_domOnly honly⟩
  simp only [blockCalcForwardDominator, get_of_live hg, ok_bind, if_neg hne, hclear]
  exact hrun

end DomInput

theorem FlowGraph.domInput {graph : BlockId} (h : FlowGraph d graph) (hindex : Indexed d graph)
    (hrpo : ReversePostorder (Edge d) r (blk d graph).list) : DomInput d (blk d graph).list [r] r := by
  have hrm : r ∈ (blk d graph).list := List.mem_of_mem_head? hrpo.head?
  refine ⟨h.reciprocal, hrpo.head?, h.nodup, h.inside, h.list_live, hindex, by simp, by simpa using hrm, by simp, fun b hb hbr => ?_⟩
  obtain ⟨a, hab, hlt⟩ := hrpo.exists_pred h.nodup hb hbr
  exact ⟨a, ⟨hb, .inl (h.reciprocal.mem_points_op.mp hab)⟩, hlt⟩

/-- With a single root, the edges that the computation goes by are those of
the graph. -/
theorem FlowGraph.trace_eq {graph : BlockId} (h : FlowGraph d graph) (hr : r ∈ (blk d graph).list) :
    Trace (RootedEdge d (blk d graph).list [r] r) r = Trace (Edge d) r := by
  have hmem {a : BlockId} (ha : Reaches (Edge d) r a) : a ∈ (blk d graph).list := by
    obtain ⟨l, hl⟩ := ha
    generalize hm : a :: l = m at hl
    induction hl generalizing a l with
    | start => exact (List.cons.inj hm).1 ▸ hr
    | step _ hbc ih =>
        obtain ⟨rfl, -⟩ := List.cons.inj hm
        exact h.inside _ (ih _ rfl) .outof hbc
  refine trace_congr (fun a b _ hab => ?_) fun a b ha hab => ?_
  · rcases hab.2 with hab | ⟨rfl, hb, hne⟩
    · exact h.reciprocal.mem_points_op.mpr hab
    · exact absurd (List.mem_singleton.mp hb) hne
  · exact ⟨h.inside a (hmem ha) .outof hab, .inl (h.reciprocal.mem_points_op.mp hab)⟩

/-- The state holds the immediate dominators of a graph with root `r`. -/
structure DomTree (d : Blocks) (E : BlockId → BlockId → Prop) (list : List BlockId) (r : BlockId) : Prop where
  nodup : list.Nodup
  live : ∀ b ∈ list, d.Live b
  index : ∀ (i : Nat) b, list[i]? = some b → (blk d b).index = i
  ordered : Ordered E r (· ∈ list) list.idxOf
  root : (blk d r).immedDom = none
  idom : ∀ b ∈ list, b ≠ r → ∃ a, (blk d b).immedDom = some a ∧ IsIdom E r a b

theorem DomTree.index_eq {E : BlockId → BlockId → Prop} (h : DomTree d E list r) {b : BlockId} (hb : b ∈ list) :
    (blk d b).index = list.idxOf b := h.index _ b (Placed.getElem?_idxOf hb)

theorem DomTree.length_le {E : BlockId → BlockId → Prop} (h : DomTree d E list r) : list.length ≤ d.nextId := by
  have hsub : list ⊆ List.range d.nextId := fun b hb => List.mem_range.mpr (Arena.lt_of_live (h.live b hb))
  simpa using (h.nodup.subperm hsub).length_le

/-- Walking up the tree decides dominance. -/
theorem DomTree.blockDominates_spec {E : BlockId → BlockId → Prop} (h : DomTree d E list r) {a b : BlockId}
    (ha : a ∈ list) (hb : b ∈ list) : ∃ res, blockDominates d a b = .ok res ∧ (res = true ↔ Dominates E r a b) := by
  have hlen := h.length_le
  have hidx := List.idxOf_lt_length_of_mem hb
  let Inv : Option BlockId → Prop := fun cur =>
    cur.elim (¬ Dominates E r a b) fun c => c ∈ list ∧ (Dominates E r a b ↔ Dominates E r a c)
  let variant : Option BlockId → Nat := fun cur => cur.elim 0 fun c => list.idxOf c + 1
  have hbody (cur : Option BlockId) (hcur : Inv cur) :
      (∃ res, dominatesPass d a (list.idxOf a) cur = .ok (.leave res) ∧ (res = true ↔ Dominates E r a b)) ∨
      ∃ cur', dominatesPass d a (list.idxOf a) cur = .ok (.again cur') ∧ Inv cur' ∧ variant cur' < variant cur := by
    cases cur with
    | none => exact .inl ⟨false, rfl, by simpa using (show ¬ Dominates E r a b from hcur)⟩
    | some c =>
        obtain ⟨hc, hiff⟩ : c ∈ list ∧ (Dominates E r a b ↔ Dominates E r a c) := hcur
        by_cases hgt : (list.idxOf a : Int) > list.idxOf c
        · refine .inl ⟨false, by simp [dominatesPass, get_of_live (h.live c hc), h.index_eq hc, hgt], ?_⟩
          rw [hiff]
          refine ⟨by simp, fun hdom => ?_⟩
          have := h.ordered.idx_le hc hdom
          omega
        · by_cases hca : c = a
          · subst hca
            exact .inl ⟨true, by simp [dominatesPass, get_of_live (h.live c hc), h.index_eq hc],
              by simpa using hiff.mpr (dominates_refl c)⟩
          · refine .inr ⟨(blk d c).immedDom, by simp [dominatesPass, get_of_live (h.live c hc), h.index_eq hc, hgt, hca], ?_⟩
            by_cases hcr : c = r
            · subst hcr
              rw [h.root]
              exact ⟨fun hdom => hca (hiff.mp hdom).eq_entry.symm, Nat.succ_pos _⟩
            · obtain ⟨p, hp, hidom⟩ := h.idom c hc hcr
              have hpl : p ∈ list :=
                h.ordered.node_of_reaches (hidom.dominates.reaches (h.ordered.reaches hc))
              rw [hp]
              refine ⟨⟨hpl, hiff.trans ⟨hidom.nearest a (Ne.symm hca), fun hap => hap.trans hidom.dominates⟩⟩, ?_⟩
              have hle := h.ordered.idx_le hc hidom.dominates
              have hne : list.idxOf p ≠ list.idxOf c := fun heq => hidom.ne ((List.idxOf_inj hpl).mp heq)
              simp only [variant, Option.elim]
              omega
  obtain ⟨res, hrun, hres⟩ := loop_total Inv (fun res => res = true ↔ Dominates E r a b) variant hbody
    (s := some b) (k := d.nextId + 2) ⟨hb, Iff.rfl⟩ (by simp only [variant, Option.elim]; omega)
  exact ⟨res, by rw [blockDominates, get_of_live (h.live a ha), ok_bind, h.index_eq ha, hrun], hres⟩

/-- For a list in reverse postorder with a single root, the computation ends,
gives each block its immediate dominator, leaves all edges as they were, and
makes `block_dominates` decide dominance. -/
theorem forward_dominators_exact (d : Blocks) (graph r : BlockId) (hg : FlowGraph d graph) (hindex : Indexed d graph)
    (hrpo : ReversePostorder (Edge d) r (blk d graph).list) :
    ∃ d', blockCalcForwardDominator d graph [r] = .ok d' ∧ (blk d' r).immedDom = none ∧
      (∀ b ∈ (blk d graph).list, b ≠ r → ∃ a, (blk d' b).immedDom = some a ∧ IsIdom (Edge d) r a b) ∧
      (∀ b dir, (blk d' b).edges dir = (blk d b).edges dir) ∧
      ∀ a ∈ (blk d graph).list, ∀ b ∈ (blk d graph).list,
        ∃ res, blockDominates d' a b = .ok res ∧ (res = true ↔ Dominates (Edge d) r a b) := by
  have hinput := hg.domInput hindex hrpo
  obtain ⟨d', hrun, hres⟩ := hinput.calcForwardDominator_spec hg.live
  have htrace := hg.trace_eq (List.mem_of_mem_head? hrpo.head?)
  have hidom : ∀ b ∈ (blk d graph).list, b ≠ r →
      ∃ a, (blk d' b).immedDom = some a ∧ IsIdom (RootedEdge d (blk d graph).list [r] r) r a b :=
    fun b hb hbr => hres.idom b hb (by simpa using hbr)
  have htree : DomTree d' (RootedEdge d (blk d graph).list [r] r) (blk d graph).list r := by
    refine ⟨hg.nodup, fun b hb => (hres.live b).mpr (hg.list_live b hb), fun i b hb => ?_, hinput.ordered,
      hres.root r (by simp), hidom⟩
    have hsame : (bare d' b).index = (bare d b).index := by rw [hres.same]
    exact hsame.trans (hindex i b hb)
  refine ⟨d', hrun, hres.root r (by simp), fun b hb hbr => ?_, fun b dir => ?_, fun a ha b hb => ?_⟩
  · obtain ⟨a, ha, hia⟩ := hidom b hb hbr
    exact ⟨a, ha, isIdom_congr htrace hia⟩
  · rw [← edges_bare, hres.same, edges_bare]
  · obtain ⟨res, hdom, hiff⟩ := htree.blockDominates_spec ha hb
    exact ⟨res, hdom, hiff.trans (dominates_congr htrace a b)⟩

theorem reversePostorder_cycle : ReversePostorder (Edge cycle) 1 (blk cycle 0).list := by
  refine .visit [] [] [2] [2] [] 1 (by simp) (fun w => Iff.rfl) ?_ (.done _)
  exact .visit [1] [] [1] [] [] 2 (by simp) (fun w => Iff.rfl) (.skip _ _ _ _ (by simp) (.done _)) (.done _)

theorem forward_dominators_exact_cycle :
    ∃ d', blockCalcForwardDominator cycle 0 [1] = .ok d' ∧ ∃ a, (blk d' 2).immedDom = some a ∧ IsIdom (Edge cycle) 1 a 2 := by
  have hindex : Indexed cycle 0 := by
    intro i b hb
    match i, hb with
    | 0, hb => obtain rfl : 1 = b := Option.some_inj.mp hb; decide
    | 1, hb => obtain rfl : 2 = b := Option.some_inj.mp hb; decide
  obtain ⟨d', hrun, -, hidom, -⟩ := forward_dominators_exact cycle 0 1 flowGraph_cycle hindex reversePostorder_cycle
  exact ⟨d', hrun, hidom 2 (by decide) (by decide)⟩

end GhidraDecompiler.Block
