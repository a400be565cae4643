/-
The adjustments of a dictionary (`adt/dict.c`).

* **`insertLoop_spec`**, **`deleteLoop_spec`** — they end with a red-black tree;
* `toList_insertLoop` — and keep the nodes in their order;
* `splice_spec` — what is left behind when a node is taken out.
-/
import Mathlib.Data.List.Induction
import Mongrel2.Dict

namespace Mongrel2.Dict

open RedBlack

/-! ### The adjustments behind an insertion -/

section

variable {α : Type*} {t t' : RBTree α} {f g : Frame α} {p : Path α} {n : ℕ} {s : Side}

theorem toList_rotate (h : rotate s t = some t') : t'.toList = t.toList := by
  cases s with
  | left =>
    rcases t with _ | ⟨c, l, a, _ | ⟨c', l', a', r'⟩⟩
    · exact absurd h (by simp [rotate, rotateLeft])
    · exact absurd h (by simp [rotate, rotateLeft])
    · obtain rfl := Option.some.inj h
      simp [RBTree.toList]
  | right =>
    rcases t with _ | ⟨c, _ | ⟨c', l', a', r'⟩, a, r⟩
    · exact absurd h (by simp [rotate, rotateRight])
    · exact absurd h (by simp [rotate, rotateRight])
    · obtain rfl := Option.some.inj h
      simp [RBTree.toList]

theorem toList_fill_congr (h : t'.toList = t.toList) : (fill t' p).toList = (fill t p).toList := by
  rw [toList_fill, toList_fill, h]

theorem toList_close_congr (hclose : g.side = f.side ∧ g.val = f.val)
    (hacross : g.across.toList = f.across.toList) (h : t'.toList = t.toList) :
    (g.close t').toList = (f.close t).toList := by
  rw [Frame.toList_close, Frame.toList_close, h, Frame.before, Frame.before, Frame.after, Frame.after,
    hclose.1, hclose.2, hacross]

/-- The adjustments keep the nodes in their order. -/
theorem toList_insertLoop (h : insertLoop t p = some t') : t'.toList = (fill t p).toList := by
  induction p using List.twoStepInduction generalizing t with
  | nil =>
    obtain rfl := Option.some.inj h
    rfl
  | singleton f =>
    rw [insertLoop] at h
    split at h
    · exact absurd h (by simp)
    · obtain rfl := Option.some.inj h
      rfl
  | cons_cons f g p ih _ =>
    rw [insertLoop] at h
    split at h
    · split at h
      · rw [ih h, fill, fill]
        exact toList_fill_congr (toList_close_congr ⟨rfl, rfl⟩ (RBTree.toList_paint _ _)
          (toList_close_congr ⟨rfl, rfl⟩ rfl rfl))
      · obtain ⟨u, hu, h⟩ := Option.bind_eq_some_iff.mp h
        obtain ⟨v, hv, h⟩ := Option.bind_eq_some_iff.mp h
        obtain rfl := Option.some.inj h
        have hparent : u.toList = (f.close t).toList := by
          unfold straighten at hu
          split at hu
          · rw [← Option.some.inj hu]
          · exact toList_rotate hu
        rw [fill, fill]
        refine toList_fill_congr ((toList_rotate hv).trans ?_)
        exact toList_close_congr ⟨rfl, rfl⟩ rfl ((RBTree.toList_paint _ _).trans hparent)
    · rw [← Option.some.inj h]

/-- A red node below a red parent whose sister is black: after one rotation or two the place of
the grandparent is balanced. -/
theorem rotate_grandpa (ht : t.Balanced n) (hred : t.color = .red) (hf : f.across.Balanced n)
    (hfc : f.across.color = .black) (hfr : f.color = .red) (hg : g.across.Balanced n)
    (hgc : g.across.color = .black) :
    ∃ u v, straighten t f g = some u ∧
      rotate g.side.opposite (Frame.close { g with color := .red } (u.paint .black)) = some v ∧
      v.Balanced (n + 1) ∧ v.color = .black := by
  obtain ⟨l, a, r, rfl⟩ := RBTree.exists_of_red hred
  obtain ⟨hl, hr, hlc, hrc⟩ := ht.of_red
  obtain ⟨s, c, b, across⟩ := f
  obtain ⟨s', c', b', across'⟩ := g
  obtain rfl : c = .red := hfr
  cases s with
  | left =>
    cases s' with
    | left => exact ⟨_, _, rfl, rfl, .black (.red hl hr hlc hrc) (.red hf hg hfc hgc), rfl⟩
    | right => exact ⟨_, _, rfl, rfl, .black (.red hg hl hgc hlc) (.red hr hf hrc hfc), rfl⟩
  | right =>
    cases s' with
    | left => exact ⟨_, _, rfl, rfl, .black (.red hf hl hfc hlc) (.red hr hg hrc hgc), rfl⟩
    | right => exact ⟨_, _, rfl, rfl, .black (.red hg hf hgc hfc) (.red hl hr hlc hrc), rfl⟩

/-- **The adjustments behind an insertion** end with a red-black tree, once its root is black. -/
theorem insertLoop_spec (hp : Around p n) (ht : t.Balanced n) (hred : t.color = .red) :
    ∃ t', insertLoop t p = some t' ∧ (t'.paint .black).IsRedBlack := by
  induction p using List.twoStepInduction generalizing t n with
  | nil => exact ⟨t, rfl, ht.isRedBlack_paint⟩
  | singleton f =>
    cases hp with
    | red _ _ hne => exact absurd rfl hne
    | black hacross _ =>
      exact ⟨_, rfl, (RBTree.Balanced.join_black _ ht hacross).isRedBlack_paint⟩
  | cons_cons f g p ih _ =>
    rw [insertLoop]
    cases hp with
    | @black s a across _ _ hacross hp =>
      have hfill : (fill t (⟨s, .black, a, across⟩ :: g :: p)).IsRedBlack :=
        (Around.black hacross hp).isRedBlack_fill ht (.of_above (List.cons_ne_nil _ _) rfl)
      refine ⟨_, if_neg (by simp), ?_⟩
      rwa [RBTree.paint_black_of_black hfill.2]
    | red hacross hblack _ habove hp =>
      rw [if_pos rfl]
      cases hp with
      | red => exact absurd habove (by simp [Path.above])
      | @black _ _ uncle _ _ huncle hp =>
        split
        · -- the uncle is red: the grandparent takes the place of the node
          next hc =>
          obtain ⟨l, b, r, rfl⟩ := RBTree.exists_of_red hc
          obtain ⟨hl, hr, -, -⟩ := huncle.of_red
          exact ih hp (.join_red _ (.join_black _ ht hacross) (.black hl hr)
            (RBTree.color_join _) rfl) (RBTree.color_join _)
        · next hc =>
          have hc : uncle.color = .black := by
            cases h : uncle.color with
            | red => exact absurd h hc
            | black => rfl
          obtain ⟨u, v, hu, hv, hbalanced, hvc⟩ :=
            @rotate_grandpa α t ⟨_, .red, _, _⟩ ⟨_, .black, _, uncle⟩ n ht hred hacross hblack rfl
              huncle hc
          refine ⟨fill v p, ?_, ?_⟩
          · exact Option.bind_eq_some_iff.mpr ⟨u, hu, Option.bind_eq_some_iff.mpr ⟨v, hv, rfl⟩⟩
          · have hfill := hp.isRedBlack_fill hbalanced (.of_black hvc)
            rwa [RBTree.paint_black_of_black hfill.2]

/-! ### The adjustments behind a deletion -/

/-- A black node is missing in `t`; where its root is red, it is there as soon as that is black. -/
def Short (t : RBTree α) (n : ℕ) : Prop :=
  (t.color = .black → t.Balanced n) ∧ (t.color = .red → (t.paint .black).Balanced (n + 1))

theorem Short.of_balanced (h : t.Balanced n) : Short t n := by
  refine ⟨fun _ => h, fun hred => ?_⟩
  obtain ⟨l, a, r, rfl⟩ := RBTree.exists_of_red hred
  obtain ⟨hl, hr, -, -⟩ := h.of_red
  exact .black hl hr

theorem color_cases (t : RBTree α) : t.color = .black ∨ t.color = .red := by
  cases t.color with
  | red => exact .inr rfl
  | black => exact .inl rfl

theorem settle_join {near far : RBTree α} {a b : α} {c : Color} :
    settle t ⟨s, c, b, .join s .black near a far⟩ =
      if near.color = .black ∧ far.color = .black then
        some (.join s c t b (.join s .red near a far), false)
      else (straightenSister s (.join s .black near a far)).bind fun sister =>
        (rotate s (.join s .black t b (setChild s.opposite ((child s.opposite sister).paint .black)
          (sister.paint c)))).bind fun u => some (u, true) := by
  cases s <;> rfl

/-- Where the sister has a red child, the place of the parent has a node in its color again, and
black nodes below it. -/
theorem settle_over {near far : RBTree α} {a b : α} {c : Color} (ht : t.Balanced n)
    (hnear : near.Balanced n) (hfar : far.Balanced n)
    (hne : ¬ (near.color = .black ∧ far.color = .black)) :
    ∃ u v x, settle t ⟨s, c, b, .join s .black near a far⟩ = some (.join s c u x v, true) ∧
      (RBTree.join s c u x v).toList =
        (Frame.close ⟨s, c, b, .join s .black near a far⟩ t).toList ∧
      u.Balanced (n + 1) ∧ v.Balanced (n + 1) ∧ u.color = .black ∧ v.color = .black := by
  rcases color_cases far with hfc | hfc
  · obtain ⟨ll, x, lr, rfl⟩ := RBTree.exists_of_red
      ((color_cases near).resolve_left fun hnc => hne ⟨hnc, hfc⟩)
    obtain ⟨hll, hlr, -, -⟩ := hnear.of_red
    cases s with
    | left =>
      refine ⟨.node .black t b ll, .node .black lr a far, x, ?_, ?_, .black ht hll,
        .black hlr hfar, rfl, rfl⟩
      · rw [settle_join, if_neg hne]
        exact Option.bind_eq_some_iff.mpr ⟨_, if_pos hfc, rfl⟩
      · simp [RBTree.toList, RBTree.join, Frame.close]
    | right =>
      refine ⟨.node .black lr b t, .node .black far a ll, x, ?_, ?_, .black hlr ht,
        .black hfar hll, rfl, rfl⟩
      · rw [settle_join, if_neg hne]
        exact Option.bind_eq_some_iff.mpr ⟨_, if_pos hfc, rfl⟩
      · simp [RBTree.toList, RBTree.join, Frame.close]
  · obtain ⟨fl, x, fr, rfl⟩ := RBTree.exists_of_red hfc
    obtain ⟨hfl, hfr, -, -⟩ := hfar.of_red
    cases s with
    | left =>
      refine ⟨.node .black t b near, .node .black fl x fr, a, ?_, ?_, .black ht hnear,
        .black hfl hfr, rfl, rfl⟩
      · rw [settle_join, if_neg hne]
        rfl
      · simp [RBTree.toList, RBTree.join, Frame.close]
    | right =>
      refine ⟨.node .black near b t, .node .black fl x fr, a, ?_, ?_, .black hnear ht,
        .black hfl hfr, rfl, rfl⟩
      · rw [settle_join, if_neg hne]
        rfl
      · simp [RBTree.toList, RBTree.join, Frame.close]

/-- **A black sister**: the place of the parent is balanced again, or it is the next from which
a black node is missing. -/
theorem settle_spec {m : ℕ} (ht : t.Balanced n) (hacross : f.across.Balanced (n + 1))
    (hac : f.across.color = .black) (hm : f.color = .red ∧ m = n ∨ f.color = .black ∧ m = n + 1) :
    ∃ u done, settle t f = some (u, done) ∧ u.toList = (f.close t).toList ∧ u.color = f.color ∧
      (done = true → u.Balanced (m + 1)) ∧ (done = false → Short u m) := by
  obtain ⟨s, c, b, across⟩ := f
  obtain ⟨near, a, far, rfl, hnear, hfar⟩ : ∃ near a far, across = .join s .black near a far ∧
      near.Balanced n ∧ far.Balanced n := by
    cases hacross with
    | red => exact absurd hac (by simp [RBTree.color])
    | @black l r a _ hl hr =>
      cases s with
      | left => exact ⟨l, a, r, rfl, hl, hr⟩
      | right => exact ⟨r, a, l, rfl, hr, hl⟩
  by_cases hne : near.color = .black ∧ far.color = .black
  · have hsister : (RBTree.join s .red near a far).Balanced n := .join_red s hnear hfar hne.1 hne.2
    refine ⟨_, false, by rw [settle_join, if_pos hne], ?_, RBTree.color_join s, by simp,
      fun _ => ?_⟩
    · cases s <;> simp [RBTree.toList, RBTree.join, Frame.close]
    · rcases hm with ⟨rfl, rfl⟩ | ⟨rfl, rfl⟩
      · -- the parent is red, with a red child
        refine ⟨fun h => absurd ((RBTree.color_join s).symm.trans h) (by simp), fun _ => ?_⟩
        rw [show (RBTree.join s .red t b (.join s .red near a far)).paint .black =
          .join s .black t b (.join s .red near a far) by cases s <;> rfl]
        exact .join_black s ht hsister
      · exact .of_balanced (.join_black s ht hsister)
  · obtain ⟨u, v, x, hsettle, hlist, hu, hv, huc, hvc⟩ := @settle_over _ _ _ s _ _ a b c ht hnear hfar hne
    refine ⟨_, true, hsettle, hlist, RBTree.color_join s, fun _ => ?_, by simp⟩
    rcases hm with ⟨rfl, rfl⟩ | ⟨rfl, rfl⟩
    · exact .join_red s hu hv huc hvc
    · exact .join_black s hu hv

/-- A red sister above black nodes: the rotation puts it above the parent. -/
theorem turn_spec {c : Color} {b : α} {across : RBTree α} (hac : across.color = .red)
    (hacross : across.Balanced n) :
    ∃ near far x, turn ⟨s, c, b, across.paint .black⟩ =
        some (⟨s, c, b, near⟩, ⟨s, .black, x, far⟩) ∧
      near.Balanced n ∧ far.Balanced n ∧ near.color = .black ∧ far.color = .black ∧
      ∀ t, (Frame.close ⟨s, .black, x, far⟩ (Frame.close ⟨s, c, b, near⟩ t)).toList =
        (Frame.close ⟨s, c, b, across⟩ t).toList := by
  obtain ⟨l, x, r, rfl⟩ := RBTree.exists_of_red hac
  obtain ⟨hl, hr, hlc, hrc⟩ := hacross.of_red
  cases s with
  | left =>
    refine ⟨l, r, x, rfl, hl, hr, hlc, hrc, fun t => ?_⟩
    simp [RBTree.toList, RBTree.join, Frame.close]
  | right =>
    refine ⟨r, l, x, rfl, hr, hl, hrc, hlc, fun t => ?_⟩
    simp [RBTree.toList, RBTree.join, Frame.close]

/-- **The adjustments behind a deletion** end with a red-black tree, once its root is black, and
keep the nodes in their order. -/
theorem deleteLoop_spec (hp : Around p (n + 1)) (ht : Short t n) :
    ∃ t', deleteLoop t p = some t' ∧ (t'.paint .black).IsRedBlack ∧
      t'.toList = (fill t p).toList := by
  induction p generalizing t n with
  | nil =>
    refine ⟨_, rfl, ?_, RBTree.toList_paint _ _⟩
    rcases color_cases t with hc | hc
    · rw [RBTree.paint_black_of_black hc]
      exact (ht.1 hc).isRedBlack_paint
    · exact (ht.2 hc).isRedBlack_paint
  | cons f p ih =>
    rw [deleteLoop]
    rcases color_cases t with hc | hc
    · rw [if_neg (by simp [hc])]
      have hbalanced := ht.1 hc
      by_cases hac : f.across.color = .red
      · -- the sister is red, and the parent black
        rw [if_pos hac]
        cases hp with
        | red _ hblack => exact absurd (hblack.symm.trans hac) (by simp)
        | @black s b across _ _ hacross hp =>
          obtain ⟨near, far, x, hturn, hnear, hfar, hnc, -, hlist⟩ :=
            @turn_spec α _ s .red b across hac hacross
          obtain ⟨u, done, hsettle, hu, huc, hdone, hshort⟩ :=
            @settle_spec α t ⟨s, .red, b, near⟩ n n hbalanced hnear hnc (.inl ⟨rfl, rfl⟩)
          have haround : Around (⟨s, .black, x, far⟩ :: p) (n + 1) := .black hfar hp
          have hloop : (turn ⟨s, .red, b, across.paint .black⟩).bind (fun x =>
              (settle t x.1).bind fun y =>
                some (fill (if y.2 then y.1 else y.1.paint .black) (x.2 :: p))) =
              some (fill (if done then u else u.paint .black) (⟨s, .black, x, far⟩ :: p)) := by
            exact Option.bind_eq_some_iff.mpr
              ⟨_, hturn, Option.bind_eq_some_iff.mpr ⟨_, hsettle, rfl⟩⟩
          have hplace : (if done then u else u.paint .black).Balanced (n + 1) ∧
              (if done then u else u.paint .black).toList = u.toList := by
            cases done with
            | true => exact ⟨hdone rfl, rfl⟩
            | false => exact ⟨(hshort rfl).2 huc, RBTree.toList_paint _ _⟩
          have hfill := haround.isRedBlack_fill hplace.1 (.of_above (List.cons_ne_nil _ _) rfl)
          refine ⟨_, hloop, ?_, ?_⟩
          · rwa [RBTree.paint_black_of_black hfill.2]
          · rw [fill, fill]
            refine toList_fill_congr ((toList_close_congr ⟨rfl, rfl⟩ rfl (hplace.2.trans hu)).trans ?_)
            exact (hlist t).trans (toList_close_congr ⟨rfl, rfl⟩ rfl rfl)
      · rw [if_neg hac]
        have hac : f.across.color = .black := (color_cases f.across).resolve_right hac
        obtain ⟨m, hm, hacross, hp, hne⟩ : ∃ m, (f.color = .red ∧ m = n ∨ f.color = .black ∧ m = n + 1) ∧
            f.across.Balanced (n + 1) ∧ Around p (m + 1) ∧
            (f.color = .red → p ≠ [] ∧ Path.above p = .black) := by
          cases hp with
          | red hacross _ hne habove hp => exact ⟨n, .inl ⟨rfl, rfl⟩, hacross, hp, fun _ => ⟨hne, habove⟩⟩
          | black hacross hp => exact ⟨n + 1, .inr ⟨rfl, rfl⟩, hacross, hp, by simp⟩
        obtain ⟨u, done, hsettle, hu, huc, hdone, hshort⟩ := settle_spec hbalanced hacross hac hm
        have hlist : (fill u p).toList = (fill t (f :: p)).toList := toList_fill_congr hu
        cases done with
        | true =>
          have hfill : (fill u p).IsRedBlack := by
            refine hp.isRedBlack_fill (hdone rfl) ?_
            rcases color_cases u with hc | hc
            · exact .of_black hc
            · exact .of_above (hne (huc ▸ hc)).1 (hne (huc ▸ hc)).2
          refine ⟨fill u p, ?_, ?_, hlist⟩
          · exact Option.bind_eq_some_iff.mpr ⟨_, hsettle, rfl⟩
          · rwa [RBTree.paint_black_of_black hfill.2]
        | false =>
          obtain ⟨t', hloop, hred, ht'⟩ := ih hp (hshort rfl)
          exact ⟨t', Option.bind_eq_some_iff.mpr ⟨_, hsettle, hloop⟩, hred, ht'.trans hlist⟩
    · rw [if_pos hc]
      have hfill := hp.isRedBlack_fill (ht.2 hc) (.of_black (RBTree.color_paint_black t))
      refine ⟨_, rfl, ?_, toList_fill_congr (RBTree.toList_paint _ _)⟩
      rwa [RBTree.paint_black_of_black hfill.2]

/-! ### Nodes that are taken out -/

/-- A node without a child on one side, from which the other moves up. -/
theorem moveUp_spec {c : Color} {l r : RBTree α} {a : α}
    (h : (fill (.node c l a r) p).IsRedBlack) (hnil : l = .nil ∧ t = r ∨ r = .nil ∧ t = l) :
    (c = .red → (fill t p).IsRedBlack) ∧ (c = .black → ∃ n, Around p (n + 1) ∧ Short t n) := by
  obtain ⟨n, hp, hnode, -⟩ := isRedBlack_fill_iff.mp h
  have hpick : ∀ P : RBTree α → Prop, P l ∧ P r → P t := by
    rintro P ⟨hl, hr⟩
    rcases hnil with ⟨-, rfl⟩ | ⟨-, rfl⟩
    · exact hr
    · exact hl
  constructor
  · rintro rfl
    obtain ⟨hl, hr, hlc, hrc⟩ := hnode.of_red
    exact hp.isRedBlack_fill (hpick (·.Balanced n) ⟨hl, hr⟩)
      (.of_black (hpick (·.color = .black) ⟨hlc, hrc⟩))
  · rintro rfl
    obtain ⟨m, rfl, hl, hr⟩ := hnode.pos_of_black
    exact ⟨m, hp, .of_balanced (hpick (·.Balanced m) ⟨hl, hr⟩)⟩

/-- **A node is taken out**: all others stay in order, and where its place was black, or that of the
successor that replaces it, a black node is missing there. -/
theorem splice_spec {x : Loc α} (h : x.root.IsRedBlack) :
    ∃ t p c, splice x = some (t, p, c) ∧ (fill t p).toList = x.before ++ x.after ∧
      (c = .red → (fill t p).IsRedBlack) ∧ (c = .black → ∃ n, Around p (n + 1) ∧ Short t n) := by
  obtain ⟨c, l, a, r, p⟩ := x
  match l, r with
  | .nil, r =>
    refine ⟨r, p, c, rfl, ?_, moveUp_spec h (.inl ⟨rfl, rfl⟩)⟩
    rw [toList_fill]
    simp [Loc.before, Loc.after, RBTree.toList]
  | .node cl ll al rl, .nil =>
    refine ⟨.node cl ll al rl, p, c, rfl, ?_, moveUp_spec h (.inr ⟨rfl, rfl⟩)⟩
    rw [toList_fill]
    simp [Loc.before, Loc.after, RBTree.toList]
  | .node cl ll al rl, .node cr lr ar rr =>
    generalize hl : RBTree.node cl ll al rl = l at h ⊢
    generalize hr : RBTree.node cr lr ar rr = r at h ⊢
    obtain ⟨y, hy⟩ : ∃ y, leftmost r [] = some y := by
      refine Option.ne_none_iff_exists'.mp fun hnone => ?_
      rw [← hr] at hnone
      exact absurd (leftmost_eq_none_iff.mp hnone) (by simp)
    -- the successor, in the place of the node
    have hnext : leftmost r (⟨.right, c, y.val, l⟩ :: p) =
        some { y with path := y.path ++ ⟨.right, c, y.val, l⟩ :: p } := by
      have happend := leftmost_append r [] (⟨.right, c, y.val, l⟩ :: p)
      rwa [List.nil_append, hy] at happend
    obtain ⟨hroot, hnil, hbefore, hafter⟩ := leftmost_spec hnext
    have hred : (fill (.node y.color y.left y.val y.right)
        (y.path ++ ⟨.right, c, y.val, l⟩ :: p)).IsRedBlack := by
      rw [Loc.root, Loc.node] at hroot
      rw [hroot]
      obtain ⟨n, hp, hnode, hsuits⟩ := isRedBlack_fill_iff.mp h
      exact hp.isRedBlack_fill (hnode.setVal y.val) hsuits
    refine ⟨y.right, y.path ++ ⟨.right, c, y.val, l⟩ :: p, y.color, ?_, ?_,
      moveUp_spec hred (.inl ⟨hnil, rfl⟩)⟩
    · subst hl hr
      exact congrArg (Option.map _) hy
    · have hpath : Path.before (y.path ++ ⟨.right, c, y.val, l⟩ :: p) =
          p.before ++ (l.toList ++ [y.val]) := by
        rw [Loc.before, hnil] at hbefore
        exact (List.append_nil _).symm.trans hbefore
      have htail : r.toList ++ p.after =
          y.val :: (y.right.toList ++ Path.after (y.path ++ ⟨.right, c, y.val, l⟩ :: p)) := hafter
      rw [toList_fill, hpath, Loc.before, Loc.after, htail]
      simp

end

end Mongrel2.Dict
