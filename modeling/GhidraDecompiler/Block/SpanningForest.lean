import GhidraDecompiler.Block.SpanningRounds

namespace GhidraDecompiler.Block

open Fallible Flow FlowBlock Relation

variable {d₀ d : Blocks} {graph : BlockId} {list R done todo : List BlockId} {s t : Search BlockId} {st : Spanning}
  {extra : Bool}

/-- The first loop resets all blocks and collects those without in edges. -/
theorem collectRoots_spec (hnodup : list.Nodup) (hlive : ∀ b ∈ list, d.Live b) :
    ∃ d', list.foldlM collectRoots (d, []) = .ok (d', list.filter fun b => points d .into b = []) ∧
      SameFrame d d' ∧ ∀ b ∈ list, blk d' b = unvisit b (blk d b) := by
  let Inv : List BlockId → Blocks × List BlockId → Prop := fun before x =>
    SameFrame d x.1 ∧ (∀ b, blk x.1 b = if b ∈ before then unvisit b (blk d b) else blk d b) ∧
      x.2 = before.filter fun b => points d .into b = []
  have hstep (before : List BlockId) (c : BlockId) (after : List BlockId) (hl : list = before ++ c :: after)
      (x : Blocks × List BlockId) (hi : Inv before x) : ∃ x', collectRoots x c = .ok x' ∧ Inv (before ++ [c]) x' := by
    obtain ⟨d₁, roots⟩ := x
    obtain ⟨hframe, hblk, hroots⟩ := hi
    dsimp only at hframe hblk hroots
    have hc : d₁.Live c := (hframe.live c).mpr (hlive c (by simp [hl]))
    have hfresh : c ∉ before := by
      rw [hl] at hnodup
      exact fun hmem => (List.disjoint_of_nodup_append hnodup) hmem (by simp)
    have hframe' : SameFrame d (d₁.update c (unvisit c)) :=
      hframe.trans (.update hc (fun _ => rfl) fun _ dir => by cases dir <;> rfl)
    have hlen : (blk (d₁.update c (unvisit c)) c).intothis.length = 0 ↔ points d .into c = [] := by
      rw [← hframe'.points, points, List.map_eq_nil_iff, List.length_eq_zero_iff, edges]
    have hc' : (d₁.update c (unvisit c)).Live c := by simpa using hc
    refine ⟨(d₁.update c (unvisit c), if points d .into c = [] then roots ++ [c] else roots), ?_, hframe',
      fun b => ?_, ?_⟩
    · simp only [collectRoots, Arena.modify_eq _ hc, ok_bind, get_of_live hc', hlen]
      split <;> rfl
    · by_cases hbc : b = c
      · subst hbc
        simp [blk_update_self hc, hblk, hfresh]
      · rw [blk_update_ne hbc, hblk]
        simp [hbc]
    · by_cases h0 : points d .into c = [] <;> simp [h0, hroots, List.filter_append, List.filter_cons]
  obtain ⟨⟨d', roots⟩, hrun, hframe, hblk, hroots⟩ := foldlM_total (f := collectRoots) Inv list hstep (s := (d, []))
    ⟨.refl d, by simp, rfl⟩
  exact ⟨d', hroots ▸ hrun, hframe, fun b hb => by rw [hblk, if_pos hb]⟩

/-- A block without in edges is only visited as a root. -/
theorem Round.mem_of_source (h : Round d₀ list R s done todo extra) (hr : Reciprocal d₀) {b : BlockId} (hb : b ∈ R)
    (hsource : points d₀ .into b = []) : b ∈ done ++ todo := by
  rcases h.pending b hb with hp | ht
  · rcases h.covered b hp with hd | ⟨v, i, -, hvb⟩
    · exact List.mem_append_left _ hd
    · have hvin : v ∈ points d₀ .into b := hr.mem_points_op.mp (List.mem_of_getElem? hvb)
      simp [hsource] at hvin
  · exact List.mem_append_right _ ht

/-- The roots of a round that visited all blocks reach all of them. -/
theorem Round.spans (h : Round d₀ list R s done todo extra) (hi : s.Inv (points d₀ .outof)) (hall : list ⊆ s.pre) :
    Spans d₀ list (done ++ todo) := by
  intro b hb
  obtain ⟨r, hr, hrb⟩ := h.covered.exists_root hi (hall hb)
  refine ⟨r, List.mem_append_left _ hr, ReflTransGen.mono (fun a c hac => ?_) r b hrb⟩
  obtain ⟨i, -, hc⟩ := hac
  exact List.mem_of_getElem? hc

/-- What reaches a block of the graph belongs to the graph. -/
theorem FlowGraph.mem_of_reach (hg : FlowGraph d graph) {a b : BlockId} (hb : b ∈ (blk d graph).list)
    (h : ReflTransGen (Edge d) a b) : a ∈ (blk d graph).list := by
  induction h using ReflTransGen.head_induction_on with
  | refl => exact hb
  | head hac _ ih => exact hg.inside _ ih .into (hg.reciprocal.mem_points_op.mp hac)

/-- A block without in edges is reached from itself only. -/
theorem eq_of_reach_source (hr : Reciprocal d) {a b : BlockId} (hb : points d .into b = [])
    (h : ReflTransGen (Edge d) a b) : a = b := by
  cases h with
  | refl => rfl
  | tail _ hcb =>
      have hin := hr.mem_points_op.mp hcb
      rw [Dir.op_outof, hb] at hin
      simp at hin

/-- The second round needs no further roots. -/
theorem spanAgain_spec (h : Sim d₀ list st s) (hround : Round d₀ list R s done todo extra)
    (hroot : st.rootlist = done ++ todo) (hall : list ⊆ s.pre) (hg : FlowGraph d₀ graph)
    (hl : (blk d₀ graph).list = list) {k : Nat} (hk : k < (done ++ todo).length) :
    ∃ st' t R' done' todo', spanAgain graph list k st = .ok st' ∧ R'.Perm (done ++ todo) ∧ Sim d₀ list st' t ∧
      Round d₀ list R' t done' todo' false ∧ st'.rootlist = done' ++ todo' ∧ list ⊆ t.pre ∧
      R'[k]? = (done ++ todo).getLast? := by
  obtain ⟨R', hswap, hperm, hfirst⟩ := swapIdx_perm (l := done ++ todo) (i := (done ++ todo).length - 1) (j := k)
    (by omega) hk
  obtain ⟨d', hreset, hnext, hlive, hblk⟩ := modifyAll_spec (d := st.d) (l := list) unvisit (fun _ _ => rfl)
    fun b hb => h.live (hl ▸ hg.list_live) hb
  have hframe : SameFrame st.d d' := by
    refine ⟨hnext, hlive, fun b => ?_, fun dir b i => ?_⟩
    · rw [hblk]
      split <;> rfl
    · rw [edge?, hblk, edge?]
      split
      · cases dir <;> rfl
      · rfl
  have hfresh : Fresh d₀ list { st with d := d', rootlist := R', preorder := [], state := [], istate := [] } := by
    refine ⟨h.shows.frame.trans hframe, fun b hb => ?_, fun b hb => ?_, fun b hb => ?_, rfl, rfl, rfl,
      h.length_rpostorder⟩ <;> rw [hblk, if_pos hb, unvisit]
  obtain ⟨st', extra', t, done', todo', hrun, ht, hround', hroot', hall'⟩ := spanRound_spec hfresh hg hl
    (hperm.nodup_iff.mpr hround.nodup) fun b hb => hround.sub (hperm.subset hb)
  have hspan : Spans d₀ list R' := fun b hb => by
    obtain ⟨r, hr, hrb⟩ := hround.spans h.inv hall b hb
    exact ⟨r, hperm.symm.subset hr, hrb⟩
  obtain rfl : extra' = false := Bool.eq_false_iff.mpr fun he => (hround'.extra he).1 hspan
  refine ⟨st', t, R', done', todo', ?_, hperm, ht, hround', hroot', hall', by rw [hfirst, List.getLast?_eq_getElem?]⟩
  simp only [spanAgain, hroot, hswap, ok_bind, hreset, hrun]
  rfl

/-- The state with another order of the blocks of a graph. -/
def withList (d : Blocks) (graph : BlockId) (l : List BlockId) : Blocks := d.update graph fun b => { b with list := l }

theorem edge?_withList (hg : d.Live graph) (l : List BlockId) (dir : Dir) (b : BlockId) (i : Nat) :
    edge? (withList d graph l) dir b i = edge? d dir b i :=
  edge?_update hg (fun _ dir => by cases dir <;> rfl) dir b i

theorem points_withList (hg : d.Live graph) (l : List BlockId) (dir : Dir) (b : BlockId) :
    points (withList d graph l) dir b = points d dir b := by
  refine List.ext_getElem? fun i => ?_
  rw [points_getElem?, points_getElem?, edge?_withList hg]

theorem list_withList (hg : d.Live graph) (l : List BlockId) : (blk (withList d graph l) graph).list = l := by
  rw [withList, blk_update_self hg]

theorem FlowGraph.withList (hg : FlowGraph d graph) {l : List BlockId} (hperm : l.Perm (blk d graph).list) :
    FlowGraph (withList d graph l) graph := by
  have hlist := list_withList hg.live l
  refine ⟨by simpa [Block.withList] using hg.live, hg.reciprocal.congr (edge?_withList hg.live l), ?_, ?_, ?_⟩
  · rw [hlist]
    exact hperm.nodup_iff.mpr hg.nodup
  · rw [hlist]
    intro b hb
    simpa [Block.withList] using hg.list_live b (hperm.subset hb)
  · rw [hlist]
    intro b hb dir c hc
    rw [points_withList hg.live] at hc
    exact hperm.symm.subset (hg.inside b (hperm.subset hb) dir hc)

theorem SameFrame.withList (h : SameFrame d₀ d) (hg : d₀.Live graph) (l : List BlockId) :
    SameFrame (withList d₀ graph l) (withList d graph l) := by
  have hg' := (h.live graph).mpr hg
  refine ⟨by simpa [Block.withList] using h.nextId, fun b => by simpa [Block.withList] using h.live b, fun b => ?_,
    fun dir b i => ?_⟩
  · rw [Block.withList, blk_update hg', Block.withList, blk_update hg]
    split
    · exact congrArg (fun x : FlowBlock => { x with list := l }) (h.blocks graph)
    · exact h.blocks b
  · rw [edge?_withList hg', edge?_withList hg]
    exact h.edges dir b i

theorem Shows.withList (h : Shows d₀ list d s) (hg : d₀.Live graph) {l : List BlockId} (hperm : l.Perm list) :
    Shows (withList d₀ graph l) l (withList d graph l) s := by
  have hg' := (h.frame.live graph).mpr hg
  have hblk (b : BlockId) : (blk (Block.withList d graph l) b).visitcount = (blk d b).visitcount ∧
      (blk (Block.withList d graph l) b).index = (blk d b).index ∧
      (blk (Block.withList d graph l) b).numdesc = (blk d b).numdesc ∧
      (blk (Block.withList d graph l) b).copymap = (blk d b).copymap := by
    rw [Block.withList, blk_update hg']
    split
    next hb => exact hb ▸ ⟨rfl, rfl, rfl, rfl⟩
    next => exact ⟨rfl, rfl, rfl, rfl⟩
  refine ⟨h.frame.withList hg l, fun b hb => ?_, fun b hb => ?_, fun b hb => ?_, fun b hb => ?_,
    fun b hb dir i e he => ?_⟩
  · exact (hblk b).1.trans (h.visit b (hperm.subset hb))
  · rw [hperm.length_eq]
    exact (hblk b).2.1.trans (h.index b (hperm.subset hb))
  · exact (hblk b).2.2.1.trans (h.numdesc b hb)
  · exact (hblk b).2.2.2.trans (h.copymap b (hperm.subset hb))
  · rw [edge?_withList hg'] at he
    exact h.labels b (hperm.subset hb) dir i e he

/-- What the search leaves behind: `d₀` is the state before it, up to the order
of the blocks. -/
structure Spanned (d₀ : Blocks) (graph : BlockId) (d : Blocks) (s : Search BlockId) (rootlist : List BlockId) : Prop where
  flow : FlowGraph d₀ graph
  shows : Shows d₀ (blk d₀ graph).list d s
  inv : s.Inv (points d₀ .outof)
  stack : s.stack = []
  mem : ∀ b, b ∈ s.pre ↔ b ∈ (blk d₀ graph).list
  list : (blk d₀ graph).list = s.post.reverse
  roots_nodup : rootlist.Nodup
  roots_sub : rootlist ⊆ (blk d₀ graph).list
  covered : s.Covered (points d₀ .outof) {b | b ∈ rootlist}

theorem mapM_expect (l : List BlockId) : (l.map some).mapM expect = .ok l := by
  induction l with
  | nil => rfl
  | cons b l ih => simp [ih]

theorem swapRoots_perm (l : List BlockId) : ∃ l', swapRoots l = .ok l' ∧ l'.Perm l := by
  rw [swapRoots]
  split
  next h =>
    obtain ⟨l', hswap, hperm, -⟩ := swapIdx_perm (l := l) (i := 0) (j := l.length - 1) (by omega) (by omega)
    exact ⟨l', hswap, hperm⟩
  next => exact ⟨l, rfl, .refl l⟩

/-- When all blocks were visited, the new order is that of the finished ones
reversed. -/
theorem Sim.finish (h : Sim d₀ list st s) (hround : Round d₀ list R s done todo extra) (hall : list ⊆ s.pre)
    (hg : FlowGraph d₀ graph) (hl : (blk d₀ graph).list = list) {rootlist : List BlockId}
    (hperm : rootlist.Perm (done ++ todo)) : st.rpostorder.mapM expect = .ok s.post.reverse ∧
      s.post.reverse.Perm list ∧
      Spanned (withList d₀ graph s.post.reverse) graph (withList st.d graph s.post.reverse) s rootlist := by
  have hmem (b : BlockId) : b ∈ s.post ↔ b ∈ list := by
    have hnames : s.names = [] := by rw [Search.names, hround.stack, List.map_nil]
    have hpre := h.inv.mem_iff b
    rw [hnames] at hpre
    exact ⟨fun hb => h.sub (h.inv.mem_of_post hb), fun hb => by simpa using hpre.mp (hall hb)⟩
  have hp : s.post.reverse.Perm list :=
    (List.reverse_perm _).trans ((List.perm_ext_iff_of_nodup h.inv.post_nodup (hl ▸ hg.nodup)).mpr hmem)
  have hcount : st.rpostcount = 0 := by
    have h₁ := hp.length_eq
    have h₂ := h.rpostcount
    rw [List.length_reverse] at h₁
    omega
  have horder : st.rpostorder = s.post.reverse.map some := by simpa [hcount] using h.rpostorder
  have hlist := list_withList hg.live s.post.reverse
  have hsucc : points (withList d₀ graph s.post.reverse) .outof = points d₀ .outof := by
    funext b
    exact points_withList hg.live _ _ b
  refine ⟨by rw [horder, mapM_expect], hp, hg.withList (hl ▸ hp), ?_, hsucc ▸ h.inv, hround.stack, fun b => ?_, hlist,
    hperm.nodup_iff.mpr hround.nodup, fun b hb => ?_, ?_⟩
  · rw [hlist]
    exact h.shows.withList hg.live hp
  · rw [hlist, hp.mem_iff]
    exact ⟨fun hb => h.sub hb, fun hb => hall hb⟩
  · rw [hlist, hp.mem_iff]
    exact hround.sub (hperm.subset hb)
  · rw [hsucc]
    exact hround.covered.mono fun b hb => hperm.symm.subset (List.mem_append_left _ hb)

/-- The block from which the search starts when there is only one such block. -/
def IsEntry (d : Blocks) (list : List BlockId) (r : BlockId) : Prop :=
  (list.filter fun b => points d .into b = []) = [r] ∨
    (list.filter fun b => points d .into b = []) = [] ∧ list.head? = some r

/-- The roots of the first round. -/
theorem firstRoots_spec (hnodup : list.Nodup) (hne : list ≠ []) : ∃ R,
    firstRoots list (list.filter fun b => points d .into b = []) = .ok R ∧
    R ≠ [] ∧ R.Nodup ∧ R ⊆ list ∧ ((∀ b ∈ R, points d .into b = []) ∨ R.length = 1) ∧ ∀ r, IsEntry d list r → R = [r] := by
  obtain ⟨b₀, rest, rfl⟩ := List.exists_cons_of_ne_nil hne
  obtain ⟨R, hrun, hperm⟩ := swapRoots_perm ((b₀ :: rest).filter fun b => points d .into b = [])
  rw [firstRoots]
  split
  next hnil =>
    refine ⟨[b₀], rfl, by simp, by simp, by simp, .inr rfl, fun r hr => ?_⟩
    rcases hr with hr | ⟨-, hr⟩
    · simp [hnil] at hr
    · simpa using hr
  next hsome =>
    refine ⟨R, hrun, fun hnil => hsome (hnil ▸ hperm).nil_eq.symm, hperm.nodup_iff.mpr (hnodup.filter _), fun b hb => List.mem_of_mem_filter (hperm.subset hb),
      .inl fun b hb => by simpa using (List.mem_filter.mp (hperm.subset hb)).2, fun r hr => ?_⟩
    rcases hr with hr | ⟨hr, -⟩
    · rw [hr] at hperm
      exact List.perm_singleton.mp hperm
    · exact absurd hr hsome

theorem spanRounds_spec (h : Fresh d₀ list st) (hg : FlowGraph d₀ graph) (hl : (blk d₀ graph).list = list)
    (hne : list ≠ []) (hnodup : st.rootlist.Nodup) (hsub : st.rootlist ⊆ list)
    (hkind : (∀ b ∈ st.rootlist, points d₀ .into b = []) ∨ st.rootlist.length = 1) :
    ∃ st' s R done todo, spanRounds graph list st = .ok st' ∧ Sim d₀ list st' s ∧ Round d₀ list R s done todo false ∧
      st'.rootlist = done ++ todo ∧ list ⊆ s.pre ∧ (Spans d₀ list st.rootlist → R = st.rootlist) ∧
      ∀ r, Spans d₀ list [r] → st.rootlist.length = 1 → ∃ b rest, R = b :: rest ∧ Spans d₀ list [b] := by
  obtain ⟨st₁, extra, s, done, todo, hrun, hsim, hround, hroot, hall⟩ := spanRound_spec h hg hl hnodup hsub
  cases extra with
  | false =>
      refine ⟨st₁, s, st.rootlist, done, todo, ?_, hsim, hround, hroot, hall, fun _ => rfl, fun r _ hone => ?_⟩
      · simp only [spanRounds, hrun, ok_bind]
        rfl
      · obtain ⟨b, hb⟩ := List.length_eq_one_iff.mp hone
        refine ⟨b, [], hb, fun c hc => ?_⟩
        obtain ⟨r', hr', hrc⟩ := hround.spans hsim.inv hall c hc
        exact ⟨r', hb ▸ hround.given rfl hr', hrc⟩
  | true =>
      have hlast : st.rootlist.length - 1 < (done ++ todo).length := by
        obtain ⟨b, hb⟩ := List.exists_mem_of_ne_nil list hne
        obtain ⟨r, hr, -⟩ := hround.spans hsim.inv hall b hb
        have hpos := List.length_pos_of_mem hr
        rcases hkind with hsource | hone
        · have hle := (List.Nodup.subperm hnodup fun b hb =>
            hround.mem_of_source hg.reciprocal hb (hsource b hb)).length_le
          omega
        · omega
      obtain ⟨st', t, R', done', todo', hagain, -, ht, hround', hroot', hall', hfirst⟩ :=
        spanAgain_spec hsim hround hroot hall hg hl hlast
      refine ⟨st', t, R', done', todo', ?_, ht, hround', hroot', hall', fun hspan => absurd hspan (hround.extra rfl).1,
        fun r hr hone => ?_⟩
      · simp only [spanRounds, hrun, ok_bind, if_pos, hagain]
      · obtain ⟨c, hc⟩ := List.exists_mem_of_ne_nil list hne
        obtain ⟨r', hr', hrc⟩ := hr c hc
        have hrl : r ∈ list := hl ▸ hg.mem_of_reach (hl ▸ hc) (List.mem_singleton.mp hr' ▸ hrc)
        obtain ⟨b, hb, hbr⟩ := hround.last r hr (hall hrl)
        rw [(hround.extra rfl).2, List.append_nil, hb, hone] at hfirst
        match R', hfirst with
        | b' :: rest, hfirst =>
            obtain rfl : b' = b := by simpa using hfirst
            refine ⟨b', rest, rfl, fun c' hc' => ⟨b', List.mem_singleton_self b', hbr.trans ?_⟩⟩
            obtain ⟨r'', hr'', hrc'⟩ := hr c' hc'
            exact List.mem_singleton.mp hr'' ▸ hrc'

/-- The run of the whole function on a graph with at least one block. -/
theorem blockFindSpanningTree_spec (hg : FlowGraph d graph) (hne : (blk d graph).list ≠ []) : ∃ d' s rootlist,
    blockFindSpanningTree d graph [] [] = .ok (d', s.pre, rootlist) ∧ s.post.reverse.Perm (blk d graph).list ∧
      Spanned (withList d graph s.post.reverse) graph d' s rootlist ∧
      (∀ r, IsEntry d (blk d graph).list r → Spans d (blk d graph).list [r] → rootlist = [r]) ∧
      ∀ r, Spans d (blk d graph).list [r] → ∃ r', Spans d (blk d graph).list [r'] ∧
        s.Covered (points d .outof) {b | b ∈ [r']} := by
  obtain ⟨list, hl⟩ : ∃ list, (blk d graph).list = list := ⟨_, rfl⟩
  rw [hl] at hne ⊢
  have hnodup : list.Nodup := hl ▸ hg.nodup
  obtain ⟨d₁, hcollect, hframe, hblk⟩ := collectRoots_spec hnodup (hl ▸ hg.list_live)
  obtain ⟨R, hfirst, hRnil, hRn, hRs, hRk, hRe⟩ := firstRoots_spec (d := d) hnodup hne
  have hfresh : Fresh d list ⟨d₁, [], R, List.replicate list.length none, list.length, [], []⟩ := by
    refine ⟨hframe, fun b hb => ?_, fun b hb => ?_, fun b hb => ?_, rfl, rfl, rfl, by simp⟩ <;> rw [hblk b hb, unvisit]
  obtain ⟨st, s, R', done, todo, hrounds, hsim, hround, hroot, hall, hsame, hone⟩ :=
    spanRounds_spec hfresh hg hl hne hRn hRs hRk
  obtain ⟨rootlist, hswap, hperm⟩ := swapRoots_perm (done ++ todo)
  obtain ⟨hmap, hpost, hspanned⟩ := hsim.finish hround hall hg hl hperm
  refine ⟨withList st.d graph s.post.reverse, s, rootlist, ?_, hpost, hspanned, fun r hr hspan => ?_, fun r hspan => ?_⟩
  · have hgl : st.d.Live graph := (hsim.shows.frame.live graph).mpr hg.live
    simp only [blockFindSpanningTree, get_of_live hg.live, ok_bind, hl, if_neg hne, hcollect, hfirst, hrounds, hroot,
      hswap, hmap, Arena.modify_eq _ hgl, hsim.preorder, pure_eq_ok, withList]
  · obtain rfl := hRe r hr
    obtain rfl := hsame hspan
    have hsub := List.Subset.trans hperm.subset (hround.given rfl)
    have hlen := (hspanned.roots_nodup.subperm hsub).length_le
    obtain ⟨b, hb⟩ := List.exists_mem_of_ne_nil list hne
    obtain ⟨r', hr', -⟩ := hround.spans hsim.inv hall b hb
    match rootlist, hperm.symm.subset hr', hsub, hlen with
    | [x], _, hsub, _ => rw [List.mem_singleton.mp (hsub (List.mem_singleton_self x))]
    | x :: y :: rest, _, _, hlen => simp at hlen
  · have hlen : R.length = 1 := by
      rcases hRk with hsource | hlen
      · have hsub : R ⊆ [r] := fun b hb => by
          obtain ⟨r', hr', hrb⟩ := hspan b (hRs hb)
          rw [← eq_of_reach_source hg.reciprocal (hsource b hb) hrb]
          exact hr'
        have hle := (hRn.subperm hsub).length_le
        have hpos := List.length_pos_of_ne_nil hRnil
        rw [List.length_singleton] at hle
        omega
      · exact hlen
    obtain ⟨b, rest, hR, hb⟩ := hone r hspan hlen
    exact ⟨b, hb, hround.covered.mono fun c hc => hround.single b rest hR hb hc⟩

namespace Spanned

variable {rootlist : List BlockId} {a b : BlockId}

theorem list_eq (h : Spanned d₀ graph d s rootlist) : (blk d graph).list = (blk d₀ graph).list :=
  h.shows.frame.list graph

theorem mem_post (h : Spanned d₀ graph d s rootlist) : b ∈ s.post ↔ b ∈ (blk d₀ graph).list := by
  rw [h.list, List.mem_reverse]

theorem last_eq (h : Spanned d₀ graph d s rootlist) (b : BlockId) : s.last b = s.visit b + s.size b := by
  rw [Search.last, if_neg (by simp [Search.names, h.stack])]

theorem visitcount_eq (h : Spanned d₀ graph d s rootlist) (hb : b ∈ (blk d₀ graph).list) :
    (blk d b).visitcount = s.visit b := by
  rw [h.shows.visit b hb, if_pos ((h.mem b).mpr hb)]

theorem numdesc_eq (h : Spanned d₀ graph d s rootlist) (hb : b ∈ (blk d₀ graph).list) : (blk d b).numdesc = s.size b :=
  h.shows.numdesc b ((h.mem b).mpr hb)

/-- The index of a block counts the blocks that were finished after it. -/
theorem index_eq (h : Spanned d₀ graph d s rootlist) (hb : b ∈ (blk d₀ graph).list) :
    (blk d b).index = ((blk d₀ graph).list.length : Int) - 1 - s.post.idxOf b := by
  rw [h.shows.index b hb, if_pos (h.mem_post.mpr hb)]

theorem indexed (h : Spanned d₀ graph d s rootlist) : Indexed d graph := by
  intro i b hb
  rw [h.list_eq] at hb
  rw [h.index_eq (List.mem_of_getElem? hb)]
  have hlen : (blk d₀ graph).list.length = s.post.length := by rw [h.list, List.length_reverse]
  rw [h.list] at hb
  obtain ⟨hi, rfl⟩ := List.getElem?_eq_some_iff.mp hb
  rw [List.length_reverse] at hi
  rw [List.getElem_reverse, h.inv.post_nodup.idxOf_getElem, hlen]
  omega

/-- An edge between the blocks of the graph, with its class. -/
theorem class_of_edge (h : Spanned d₀ graph d s rootlist) (ha : a ∈ (blk d₀ graph).list) {i : Nat} {e : BlockEdge}
    (he : edge? d .outof a i = some e) :
    (points d₀ .outof a)[i]? = some e.point ∧ e.point ∈ (blk d₀ graph).list ∧ s.Passed a i ∧
      ∃ c, s.cls a i = some c ∧ e.label &&& spanFlags = classBits (some c) := by
  have hp : (points d₀ .outof a)[i]? = some e.point := by
    rw [← h.shows.frame.points, points_getElem?, he, Option.map_some]
  have hpassed : s.Passed a i := .inl (h.mem_post.mpr ha)
  obtain ⟨-, c, hc, -⟩ := h.inv.passed a i e.point hpassed hp
  refine ⟨hp, h.flow.inside a ha .outof (List.mem_of_getElem? hp), hpassed, c, hc, ?_⟩
  have hlabel := h.shows.labels a ha .outof i e he
  rwa [origin, hc] at hlabel

end Spanned

/-- The labels that stand for the class of an edge. -/
def classFlags : Flags := fTreeEdge ||| fForwardEdge ||| fCrossEdge ||| fBackEdge

/-- There is an edge with the label for tree edges. -/
def TreeLink (d : Blocks) (a b : BlockId) : Prop :=
  ∃ i e, edge? d .outof a i = some e ∧ e.point = b ∧ e.label &&& fTreeEdge ≠ 0#32

/-- A flag among those of the search is read off the class. -/
theorem and_flag_of_span {l fl : Flags} {c : Option EdgeClass} (h : l &&& spanFlags = classBits c)
    (hfl : spanFlags &&& fl = fl) : l &&& fl = classBits c &&& fl := by
  rw [← h, BitVec.and_assoc, hfl]

namespace Spanned

variable {rootlist : List BlockId} {a b : BlockId}

/-- The label for tree edges is read off the class. -/
theorem tree_of_label (h : Spanned d₀ graph d s rootlist) (ha : a ∈ (blk d₀ graph).list) {i : Nat} {e : BlockEdge}
    (he : edge? d .outof a i = some e) (hl : e.label &&& fTreeEdge ≠ 0#32) :
    s.cls a i = some .tree ∧ (points d₀ .outof a)[i]? = some e.point := by
  obtain ⟨hp, -, -, c, hc, hspan⟩ := h.class_of_edge ha he
  rw [and_flag_of_span hspan (by decide)] at hl
  exact ⟨hc.trans (eq_tree_of_and hl), hp⟩

theorem treeLink_iff (h : Spanned d₀ graph d s rootlist) (ha : a ∈ (blk d₀ graph).list) :
    TreeLink d a b ↔ s.TreeEdge (points d₀ .outof) a b := by
  constructor
  · rintro ⟨i, e, he, rfl, hl⟩
    exact ⟨i, h.tree_of_label ha he hl⟩
  · rintro ⟨i, hi, hp⟩
    rw [← h.shows.frame.points, points_getElem?, Option.map_eq_some_iff] at hp
    obtain ⟨e, he, rfl⟩ := hp
    obtain ⟨-, -, -, c, hc, hspan⟩ := h.class_of_edge ha he
    obtain rfl : c = .tree := Option.some_inj.mp (hc.symm.trans hi)
    refine ⟨i, e, he, rfl, ?_⟩
    rw [and_flag_of_span hspan (by decide)]
    decide

/-- The forest that the labels show is that of the search. -/
theorem below_iff (h : Spanned d₀ graph d s rootlist) (ha : a ∈ (blk d₀ graph).list) :
    ReflTransGen (TreeLink d) a b ↔ ReflTransGen (s.TreeEdge (points d₀ .outof)) a b := by
  constructor
  · intro hab
    induction hab using ReflTransGen.head_induction_on with
    | refl => exact .refl
    | head hac _ ih =>
        have hac' := (h.treeLink_iff ha).mp hac
        exact .head hac' (ih ((h.mem _).mp (h.inv.fits_tree hac').2.1))
  · intro hab
    induction hab using ReflTransGen.head_induction_on with
    | refl => exact .refl
    | head hac _ ih => exact .head ((h.treeLink_iff ha).mpr hac) (ih ((h.mem _).mp (h.inv.fits_tree hac).2.1))

/-- The blocks below a block are those in its interval of visits. -/
theorem interval (h : Spanned d₀ graph d s rootlist) (ha : a ∈ (blk d₀ graph).list) (hb : b ∈ (blk d₀ graph).list) :
    ReflTransGen (TreeLink d) a b ↔
      (blk d a).visitcount ≤ (blk d b).visitcount ∧ (blk d b).visitcount < (blk d a).visitcount + (blk d a).numdesc := by
  rw [h.below_iff ha, h.inv.below_iff ((h.mem a).mpr ha) ((h.mem b).mpr hb), h.visitcount_eq ha, h.visitcount_eq hb,
    h.numdesc_eq ha, h.last_eq]
  omega

/-- The label of an edge, in terms of the forest. -/
theorem label_cases (h : Spanned d₀ graph d s rootlist) (ha : a ∈ (blk d₀ graph).list) {i : Nat} {e : BlockEdge}
    (he : edge? d .outof a i = some e) :
    (e.label &&& classFlags = fTreeEdge ∨ e.label &&& classFlags = fForwardEdge) ∧ a ≠ e.point ∧
        ReflTransGen (TreeLink d) a e.point ∨
      e.label &&& classFlags = fBackEdge ∧ ReflTransGen (TreeLink d) e.point a ∨
      e.label &&& classFlags = fCrossEdge ∧ ¬ ReflTransGen (TreeLink d) a e.point ∧
        ¬ ReflTransGen (TreeLink d) e.point a := by
  obtain ⟨hp, hw, hpassed, c, hc, hspan⟩ := h.class_of_edge ha he
  obtain ⟨c', hc', hback, hdown⟩ := h.inv.class_iff hpassed hp
  obtain rfl : c = c' := Option.some_inj.mp (hc.symm.trans hc')
  rw [h.below_iff ha, h.below_iff hw, and_flag_of_span hspan (by decide)]
  cases c with
  | tree => exact .inl ⟨.inl (by decide), hdown.mp (.inl rfl)⟩
  | forward => exact .inl ⟨.inr (by decide), hdown.mp (.inr rfl)⟩
  | back => exact .inr (.inl ⟨by decide, hback.mp rfl⟩)
  | cross =>
      have hno : ¬ ReflTransGen (s.TreeEdge (points d₀ .outof)) e.point a := fun hrel => by
        simpa using hback.mpr hrel
      refine .inr (.inr ⟨by decide, fun hrel => ?_, hno⟩)
      have hne : a ≠ e.point := fun heq => hno (heq ▸ .refl)
      simpa using hdown.mpr ⟨hne, hrel⟩

/-- Only back edges lead from a larger index to a smaller one. -/
theorem index_lt (h : Spanned d₀ graph d s rootlist) (ha : a ∈ (blk d₀ graph).list) {i : Nat} {e : BlockEdge}
    (he : edge? d .outof a i = some e) (hback : e.label &&& fBackEdge = 0#32) :
    (blk d a).index < (blk d e.point).index := by
  obtain ⟨hp, hw, -, c, hc, hspan⟩ := h.class_of_edge ha he
  have hne : s.cls a i ≠ some .back := by
    rw [hc]
    rintro hcb
    rw [and_flag_of_span hspan (by decide), hcb] at hback
    exact absurd hback (by decide)
  have hlt := h.inv.finished_first (h.mem_post.mpr ha) hp hne (h.mem_post.mpr hw)
  rw [h.index_eq ha, h.index_eq hw]
  omega

/-- The two ends of an edge carry the same labels of the search. -/
theorem both_ends (h : Spanned d₀ graph d s rootlist) (ha : a ∈ (blk d₀ graph).list) {i : Nat} {e : BlockEdge}
    (he : edge? d .outof a i = some e) : ∃ e', edge? d .into e.point e.reverseIndex = some e' ∧ e'.point = a ∧
      e'.reverseIndex = i ∧ e'.label &&& spanFlags = e.label &&& spanFlags := by
  obtain ⟨-, hw, -⟩ := h.class_of_edge ha he
  obtain ⟨-, e', he', rfl, rfl, -⟩ := h.shows.frame.reciprocal h.flow.reciprocal .outof a i e he (by simp)
  refine ⟨e', he', rfl, rfl, ?_⟩
  rw [h.shows.labels _ hw .into _ e' he', h.shows.labels _ ha .outof _ e he, origin, origin]

/-- No block is entered along two tree edges. -/
theorem tree_unique (h : Spanned d₀ graph d s rootlist) {i i' : Nat} {e e' : BlockEdge} {a' : BlockId}
    (ha : a ∈ (blk d₀ graph).list) (ha' : a' ∈ (blk d₀ graph).list) (he : edge? d .outof a i = some e)
    (he' : edge? d .outof a' i' = some e') (hp : e.point = e'.point) (hl : e.label &&& fTreeEdge ≠ 0#32)
    (hl' : e'.label &&& fTreeEdge ≠ 0#32) : a = a' ∧ i = i' := by
  obtain ⟨h₁, h₂⟩ := h.tree_of_label ha he hl
  obtain ⟨h₃, h₄⟩ := h.tree_of_label ha' he' hl'
  exact h.inv.unique a i a' i' e.point h₁ h₃ h₂ (hp ▸ h₄)

end Spanned

/-- A depth-first classification of the edges among the blocks of a list: the
tree edges form a forest whose subtrees are intervals of visits, every edge
carries one of the four labels at both ends, and only back edges lead to a
smaller index. -/
structure Classified (d : Blocks) (list : List BlockId) : Prop where
  within : ∀ a ∈ list, 0 ≤ (blk d a).visitcount ∧ 0 < (blk d a).numdesc ∧
    (blk d a).visitcount + (blk d a).numdesc ≤ list.length
  interval : ∀ a ∈ list, ∀ b ∈ list, ReflTransGen (TreeLink d) a b ↔
    (blk d a).visitcount ≤ (blk d b).visitcount ∧ (blk d b).visitcount < (blk d a).visitcount + (blk d a).numdesc
  unique : ∀ a ∈ list, ∀ a' ∈ list, ∀ i i' e e', edge? d .outof a i = some e → edge? d .outof a' i' = some e' →
    e.point = e'.point → e.label &&& fTreeEdge ≠ 0#32 → e'.label &&& fTreeEdge ≠ 0#32 → a = a' ∧ i = i'
  label : ∀ a ∈ list, ∀ i e, edge? d .outof a i = some e →
    (e.label &&& classFlags = fTreeEdge ∨ e.label &&& classFlags = fForwardEdge) ∧ a ≠ e.point ∧
        ReflTransGen (TreeLink d) a e.point ∨
      e.label &&& classFlags = fBackEdge ∧ ReflTransGen (TreeLink d) e.point a ∨
      e.label &&& classFlags = fCrossEdge ∧ ¬ ReflTransGen (TreeLink d) a e.point ∧
        ¬ ReflTransGen (TreeLink d) e.point a
  ends : ∀ a ∈ list, ∀ i e, edge? d .outof a i = some e → ∃ e', edge? d .into e.point e.reverseIndex = some e' ∧
    e'.point = a ∧ e'.reverseIndex = i ∧ e'.label &&& classFlags = e.label &&& classFlags
  forward : ∀ a ∈ list, ∀ i e, edge? d .outof a i = some e → e.label &&& classFlags ≠ fBackEdge →
    (blk d a).index < (blk d e.point).index

theorem Spanned.classified {rootlist : List BlockId} (h : Spanned d₀ graph d s rootlist) :
    Classified d (blk d₀ graph).list := by
  refine ⟨fun a ha => ?_, fun a ha b hb => h.interval ha hb, fun a ha a' ha' i i' e e' => h.tree_unique ha ha',
    fun a ha i e he => h.label_cases ha he, fun a ha i e he => ?_, fun a ha i e he hne => h.index_lt ha he ?_⟩
  · have hp := (h.mem a).mpr ha
    have hpos := h.inv.size_pos a hp
    have hle := h.inv.last_le a hp
    have hlen : s.pre.length = (blk d₀ graph).list.length :=
      ((List.perm_ext_iff_of_nodup h.inv.pre_nodup h.flow.nodup).mpr h.mem).length_eq
    rw [h.last_eq] at hle
    rw [h.visitcount_eq ha, h.numdesc_eq ha]
    omega
  · obtain ⟨e', he', hp, hr, hl⟩ := h.both_ends ha he
    refine ⟨e', he', hp, hr, ?_⟩
    rw [show classFlags = spanFlags &&& classFlags from rfl, ← BitVec.and_assoc, hl, BitVec.and_assoc]
  · obtain ⟨-, -, -, c, -, hspan⟩ := h.class_of_edge ha he
    rw [and_flag_of_span hspan (by decide)] at hne ⊢
    cases c with
    | back => exact absurd rfl hne
    | _ => rfl

/-- On every graph the search ends, visits each block once, sorts the blocks by
their index and classifies all edges. -/
theorem spanning_tree_classifies (d : Blocks) (graph : BlockId) (hg : FlowGraph d graph) : ∃ d' preorder rootlist,
    blockFindSpanningTree d graph [] [] = .ok (d', preorder, rootlist) ∧ preorder.Perm (blk d graph).list ∧
      (∀ (i : Nat) b, preorder[i]? = some b → (blk d' b).visitcount = i) ∧ (blk d' graph).list.Perm (blk d graph).list ∧
      Indexed d' graph ∧ (∀ b dir, points d' dir b = points d dir b) ∧ Classified d' (blk d' graph).list := by
  by_cases hne : (blk d graph).list = []
  · refine ⟨d, [], [], ?_, by simp [hne], by simp, .refl _, by simp [Indexed, hne], fun _ _ => rfl, ?_⟩
    · simp only [blockFindSpanningTree, get_of_live hg.live, ok_bind, if_pos hne, pure_eq_ok]
    · rw [hne]
      constructor <;> simp
  · obtain ⟨d', s, rootlist, hrun, hperm, h, -, -⟩ := blockFindSpanningTree_spec hg hne
    have hlist := list_withList hg.live s.post.reverse
    have hmem (b : BlockId) : b ∈ s.pre ↔ b ∈ (blk d graph).list := by rw [h.mem, hlist, hperm.mem_iff]
    refine ⟨d', s.pre, rootlist, hrun, (List.perm_ext_iff_of_nodup h.inv.pre_nodup hg.nodup).mpr hmem, fun i b hb => ?_,
      by rwa [h.list_eq, hlist], h.indexed, fun b dir => ?_, h.list_eq ▸ h.classified⟩
    · rw [h.visitcount_eq ((h.mem b).mp (List.mem_of_getElem? hb))]
      obtain ⟨hi, rfl⟩ := List.getElem?_eq_some_iff.mp hb
      rw [Search.visit, h.inv.pre_nodup.idxOf_getElem]
    · rw [h.shows.frame.points, points_withList hg.live]

theorem spanning_tree_classifies_cycle : ∃ d' preorder rootlist,
    blockFindSpanningTree cycle 0 [] [] = .ok (d', preorder, rootlist) ∧ preorder.Perm [1, 2] ∧ Classified d' (blk d' 0).list := by
  obtain ⟨d', preorder, rootlist, hrun, hperm, -, -, -, -, hclass⟩ := spanning_tree_classifies cycle 0 flowGraph_cycle
  exact ⟨d', preorder, rootlist, hrun, hperm, hclass⟩

end GhidraDecompiler.Block
