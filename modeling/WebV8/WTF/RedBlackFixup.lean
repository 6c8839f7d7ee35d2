import WebV8.WTF.RedBlackReshape

/-!
# Restoring the red-black properties

The loops of `insert` and `removeFixup` at the focus. For each case of the source, first what it does
to the tree; then the loop, by induction on the rounds.

The invariant of `insert` is a red subtree at the focus that fits into its hole up to the colour of
the node above. The invariant of `removeFixup` is a subtree at the focus with one black node too few
on every path.
-/

namespace WebV8

open Lib ColorTree List Option Nat LinkedTree

variable {ι δ σ κ : Type} [DecidableEq ι] (aug : Augmentation δ σ) {core : δ → κ}
  {m : ι → LinkedNode ι δ} {t : LinkedTree ι δ} {ctx : List (Frame (ι × δ))} {d e : Dir}

/-! ## Insertion -/

variable {x p g : ι} {vp vg : δ} {T S U W : ColorTree (ι × δ)}

theorem insertRound_case1 {u : ι} {vu : δ}
    (h : Focus m t (⟨e, .red, (p, vp), S⟩ :: ⟨d, .black, (g, vg), branch d .red U (u, vu) W⟩ :: ctx) T) :
    ∃ t' vp' vg', t.insertRound aug d x p g = some (t', g, aboveId ctx) ∧
      Focus m t' ctx (branch d .red (branch e .black T (p, vp') S) (g, vg') (branch d .black U (u, vu) W)) ∧
      vp' = (aug.refresh e vp (summaryOf aug T) (summaryOf aug S)).1 ∧
      vg' = (aug.refresh d vg (some (aug.summary vp')) (some (aug.summary vu))).1 := by
  have hp := focus_branch.mpr h
  have hg := focus_branch.mpr hp
  have hch : (t.node g).child d.flip = some u := by
    rw [hg.node_eq, child_flip_ofSides, rootId_branch]
  have hred : t.isBlack (some u) = false := by
    have hu := (focus_branch_flip.mp hg).isBlack
    rw [rootId_branch] at hu
    rw [hu]
    cases d <;> rfl
  -- the three colours
  have h₁ := focus_branch.mpr (hp.setColor .black)
  have h₂ := focus_branch_flip.mpr ((focus_branch_flip.mp h₁).setColor .black)
  have h₃ := h₂.setColor .red
  -- the two updates
  obtain ⟨t₄, hup₄, h₄⟩ := (focus_branch.mp h₃).updateNode aug
  obtain ⟨t₅, hup₅, h₅⟩ := (focus_branch.mpr h₄).updateNode aug
  rw [summaryOf_branch, summaryOf_branch] at h₅
  refine ⟨t₅, _, _, ?_, h₅, rfl, rfl⟩
  simp only [insertRound, hch, hred, Bool.false_eq_true, if_false, setColorIf, hup₄, hup₅]
  rw [h₅.node_eq, parent_ofSides]

theorem insertCase3_spec (h : Focus m t (⟨d, .red, (p, vp), S⟩ :: ⟨d, .black, (g, vg), U⟩ :: ctx) T)
    (hx : rootId T = some x) : ∃ t', t.insertCase3 aug d x = some (t', x, aboveId ctx) ∧
      Focus m t' ctx (rotated aug d.flip .red .black U S T g p vg vp) := by
  have hp := focus_branch.mpr h
  have hpar : (t.node x).parent = some p := parent_rootId h.cells hx
  have h₁ := focus_branch.mpr (hp.setColor .black)
  have hgra : ((t.setColor p .black).node p).parent = some g := by
    rw [(focus_branch.mp h₁).node_eq, parent_ofSides]
    rfl
  have h₂ := h₁.setColor .red
  rw [← branch_flip d, ← branch_flip d .black] at h₂
  obtain ⟨t₃, hrot, h₃⟩ := h₂.rotate aug
  refine ⟨t₃, ?_, h₃⟩
  simp only [insertCase3, hpar, hgra, hrot, bind_eq_bind, bind_some]
  rw [h₃.node_eq, parent_ofSides]
  rfl

theorem insertRound_case2 {vx : δ} {X Y : ColorTree (ι × δ)}
    (h : Focus m t (⟨d.flip, .red, (p, vp), S⟩ :: ⟨d, .black, (g, vg), U⟩ :: ctx)
      (branch d .red X (x, vx) Y)) (hU : U.rootColor = .black) :
    ∃ t' vp' vx', t.insertRound aug d x p g = some (t', p, aboveId ctx) ∧
      Focus m t' ctx (rotated aug d.flip .red .black U Y (branch d .red S (p, vp') X) g x vg vx') ∧
      vp' = (aug.refresh d vp (summaryOf aug S) (summaryOf aug X)).1 ∧
      vx' = (aug.refresh d vx (some (aug.summary vp')) (summaryOf aug Y)).1 := by
  have hp := focus_branch.mpr h
  have hg := focus_branch.mpr hp
  rw [branch_flip] at hp
  have hbla : t.isBlack ((t.node g).child d.flip) = true := by
    rw [hg.node_eq, child_flip_ofSides, (focus_branch_flip.mp hg).isBlack, hU]
    rfl
  have hinn : (t.node p).child d.flip = some x := by
    rw [hp.node_eq, child_flip_ofSides, rootId_branch]
  obtain ⟨t₁, hrot, h₁⟩ := hp.rotate aug
  obtain ⟨t₂, hcase3, h₂⟩ := insertCase3_spec aug (focus_branch.mp h₁) (rootId_branch ..)
  refine ⟨t₂, _, _, ?_, h₂, rfl, rfl⟩
  simp [insertRound, hbla, hinn, hrot, hcase3]

theorem insertRound_case3 (h : Focus m t (⟨d, .red, (p, vp), S⟩ :: ⟨d, .black, (g, vg), U⟩ :: ctx) T)
    (hx : rootId T = some x) (hU : U.rootColor = .black) :
    ∃ t', t.insertRound aug d x p g = some (t', x, aboveId ctx) ∧
      Focus m t' ctx (rotated aug d.flip .red .black U S T g p vg vp) := by
  have hp := focus_branch.mpr h
  have hg := focus_branch.mpr hp
  have hbla : t.isBlack ((t.node g).child d.flip) = true := by
    rw [hg.node_eq, child_flip_ofSides, (focus_branch_flip.mp hg).isBlack, hU]
    rfl
  have hout : (t.node p).child d.flip ≠ some x := by
    rw [hp.node_eq, child_flip_ofSides]
    exact h.rootId_ne hx
  obtain ⟨t₁, hcase3, h₁⟩ := insertCase3_spec aug h hx
  refine ⟨t₁, ?_, h₁⟩
  simp [insertRound, hbla, hout, hcase3]

theorem insertFixup_below_black {v : δ} (rounds : Nat)
    (u : Option ι) (h : Focus m t (⟨d, .black, (p, v), S⟩ :: ctx) T) (hx : rootId T = some x) :
    insertFixup aug (rounds + 1) t x u = some (t, u) := by
  have hroot : t.root ≠ some x := hx ▸ h.root_ne (cons_ne_nil _ _)
  have hpar : (t.node x).parent = some p := parent_rootId h.cells hx
  rw [insertFixup, if_neg hroot, hpar]
  simp only [bind_eq_bind, bind_some]
  rw [h.above_eq, color_ofSides]
  rfl

theorem insertFixup_below_red (rounds : Nat)
    (u : Option ι) (h : Focus m t (⟨e, .red, (p, vp), S⟩ :: ⟨d, .black, (g, vg), U⟩ :: ctx) T)
    (hx : rootId T = some x) : insertFixup aug (rounds + 1) t x u =
      (t.insertRound aug d x p g).bind fun r => insertFixup aug rounds r.1 r.2.1 r.2.2 := by
  have hroot : t.root ≠ some x := hx ▸ h.root_ne (cons_ne_nil _ _)
  have hpar : (t.node x).parent = some p := parent_rootId h.cells hx
  have hp := focus_branch.mpr h
  have hside := hp.side_eq (by rw [rootId_branch]; exact (hp.rootId_ne (rootId_branch ..)).symm)
  rw [rootId_branch] at hside
  rw [insertFixup, if_neg hroot, hpar]
  simp only [bind_eq_bind, bind_some]
  rw [hp.node_eq, color_ofSides, if_pos rfl, parent_ofSides, aboveId_cons]
  simp [hside]

/-- The tree after the loop of `insert`: the focus is where the summaries are up to date, and around
    it they are as they were. -/
structure Inserted (core : δ → κ) (m : ι → LinkedNode ι δ) (T₀ : ColorTree (ι × δ))
    (t' : LinkedTree ι δ) (ctx' : List (Frame (ι × δ))) (T' : ColorTree (ι × δ)) : Prop where
  focus : Focus m t' ctx' T'
  entries_eq : entries core (plug ctx' T') = entries core T₀
  balanced : ∃ c n, Balanced (plug ctx' T') c n
  upToDate : UpToDate aug T'
  around : ∃ s, CtxUpToDate aug ctx' s

variable {aug} (hlaw : aug.Lawful core)
include hlaw

omit [DecidableEq ι] in
theorem upToDate_recolored {u : ι} {c₁ c₂ c₃ c₄ : Color} {vu : δ} (hT : UpToDate aug T)
    (hS : UpToDate aug S) (hU : UpToDate aug (branch d c₁ U (u, vu) W)) :
    let vp' := (aug.refresh e vp (summaryOf aug T) (summaryOf aug S)).1
    UpToDate aug (branch d c₂ (branch e c₃ T (p, vp') S)
      (g, (aug.refresh d vg (some (aug.summary vp')) (some (aug.summary vu))).1)
      (branch d c₄ U (u, vu) W)) := by
  intro vp'
  rw [upToDate_branch, upToDate_branch, summaryOf_branch, summaryOf_branch]
  refine ⟨refresh_refresh hlaw d _ _ _, ⟨refresh_refresh hlaw e _ _ _, hT, hS⟩, ?_⟩
  exact upToDate_branch.mpr (upToDate_branch.mp hU)

omit [DecidableEq ι] in
theorem inserted_rotated {t' : LinkedTree ι δ} {T₀ : ColorTree (ι × δ)} {k : Nat} {c : Color} {s : Option σ}
    (h : Focus m t' ctx (rotated aug d.flip .red .black U S T g p vg vp))
    (hbal : Balanced T .red k) (hS : Balanced S .black k) (hU : Balanced U .black k)
    (hctx : HoleOk ctx c (k + 1)) (hfT : UpToDate aug T) (hfS : UpToDate aug S) (hfU : UpToDate aug U)
    (hs : CtxUpToDate aug ctx s) (h₀ : entries core T₀ =
      entries core (plug ctx (branch d.flip .black U (g, vg) (branch d.flip .red S (p, vp) T)))) :
    Inserted aug core m T₀ t' ctx (rotated aug d.flip .red .black U S T g p vg vp) := by
  refine ⟨h, ?_, ?_, upToDate_rotated hlaw hfU hfS hfT, s, hs⟩
  · rw [h₀, entries_plug, entries_plug, entries_rotated hlaw .black .red]
  · obtain ⟨k, n, hplug, -⟩ := ((hU.branch_red hS).branch_black hbal).plug hctx fun _ => rfl
    exact ⟨k, n, hplug⟩

theorem insertFixup_spec : ∀ (rounds : Nat) {t : LinkedTree ι δ} {ctx : List (Frame (ι × δ))}
    {T : ColorTree (ι × δ)} {x : ι} {k : Nat} {c : Color} {s : Option σ},
    Focus m t ctx T → rootId T = some x → Balanced T .red k → HoleOk ctx c k → UpToDate aug T →
    CtxUpToDate aug ctx s → ctx.length < rounds →
    ∃ t' ctx' T', insertFixup aug rounds t x (aboveId ctx) = some (t', aboveId ctx') ∧
      Inserted aug core m (plug ctx T) t' ctx' T' := by
  intro rounds
  induction rounds with
  | zero =>
    intro t ctx T x k c s _ _ _ _ _ _ hlen
    exact absurd hlen (not_lt_zero _)
  | succ rounds ih =>
    intro t ctx T x k c s h hx hbal hctx hT hs hlen
    cases hctx with
    | root =>
      -- `x` is the root
      refine ⟨t, [], T, ?_, h, rfl, ⟨_, _, hbal⟩, hT, s, hs⟩
      exact if_pos (h.root.trans hx)
    | @black d a S ctx c c' n hS hctx =>
      obtain ⟨p, v⟩ := a
      refine ⟨t, _, T, insertFixup_below_black aug rounds _ h hx, h, rfl, ?_, hT, s, hs⟩
      obtain ⟨k, n, hplug, -⟩ := hbal.plug (.black hS hctx) nofun
      exact ⟨k, n, hplug⟩
    | @red e a S ctx n hS hctx hne =>
      obtain ⟨p, vp⟩ := a
      cases hctx with
      | root => exact absurd rfl hne
      | @black d b U ctx cu c' n hU hctx =>
        obtain ⟨g, vg⟩ := b
        obtain ⟨-, hfS, -, hfU, hs⟩ := hs
        have hlen' : ctx.length < rounds := by
          simp at hlen
          omega
        obtain ⟨rounds, rfl⟩ := exists_eq_add_one_of_ne_zero (ne_zero_of_lt hlen')
        cases cu with
        | red =>
          obtain ⟨U, ⟨u, vu⟩, W, rfl⟩ := hU.exists_branch_red d
          obtain ⟨-, hU, hW⟩ := hU.of_branch_red
          obtain ⟨-, hfU', hfW⟩ := upToDate_branch.mp hfU
          obtain ⟨t₁, vp', vg', hrnd, h₁, rfl, rfl⟩ := insertRound_case1 (x := x) aug h
          rw [insertFixup_below_red aug _ _ h hx, hrnd]
          obtain ⟨t', ctx', T', hfix, hins⟩ := ih h₁ (rootId_branch ..)
            ((hbal.branch_black hS).branch_red (hU.branch_black hW)) hctx
            (upToDate_recolored hlaw hT hfS hfU) hs hlen'
          refine ⟨t', ctx', T', hfix, hins.focus, hins.entries_eq.trans ?_, hins.balanced, hins.upToDate, hins.around⟩
          simp only [plug_cons, Frame.fill, entries_plug]
          rw [entries_branch_congr (entries_branch_congr rfl rfl (core_refresh hlaw e _ _ _))
            (entries_branch_congr rfl rfl rfl) (core_refresh hlaw d _ _ _)]
        | black =>
          rcases Dir.eq_or_eq_flip d e with rfl | rfl
          · obtain ⟨t₁, hrnd, h₁⟩ := insertRound_case3 aug h hx hU.rootColor_eq
            refine ⟨t₁, ctx, _, ?_, inserted_rotated hlaw h₁ hbal hS hU hctx hT hfS hfU hs ?_⟩
            · rw [insertFixup_below_red aug _ _ h hx, hrnd]
              exact insertFixup_below_black aug _ _ (focus_branch_flip.mp h₁) hx
            · rw [branch_flip, branch_flip]
              rfl
          · obtain ⟨X, ⟨z, vx⟩, Y, rfl⟩ := hbal.exists_branch_red d
            obtain rfl : z = x := by simpa using hx
            obtain ⟨-, hX, hY⟩ := hbal.of_branch_red
            obtain ⟨-, hfX, hfY⟩ := upToDate_branch.mp hT
            obtain ⟨t₁, vp', vx', hrnd, h₁, rfl, rfl⟩ := insertRound_case2 aug h hU.rootColor_eq
            have hinn : UpToDate aug (rotated aug d .red .red S X Y p z vp vx) := upToDate_rotated hlaw hfS hfX hfY
            obtain ⟨-, hinn, -⟩ := upToDate_branch.mp hinn
            refine ⟨t₁, ctx, _, ?_, inserted_rotated hlaw h₁ (hS.branch_red hX) hY hU hctx hinn hfY hfU hs ?_⟩
            · rw [insertFixup_below_red aug _ _ h hx, hrnd]
              exact insertFixup_below_black aug _ _ (focus_branch_flip.mp h₁) (rootId_branch ..)
            · have hrot : entries core (rotated aug d .red .red S X Y p z vp vx) =
                  entries core (branch d .red S (p, vp) (branch d .red X (z, vx) Y)) :=
                entries_rotated hlaw _ _ _ _
              simp only [plug_cons, Frame.fill, entries_plug]
              rw [branch_flip, branch_flip, branch_flip d .red]
              congr 2
              exact (entries_branch_congr hrot rfl rfl).symm

omit hlaw

/-! ## Removal -/

section remove

variable (aug) {p w q : ι} {vp vw vq : δ} {X N F : ColorTree (ι × δ)} {c cp : Color}

theorem removeCase4_spec (h : Focus m t (⟨d, cp, (p, vp), branch d c N (w, vw) F⟩ :: ctx) X) :
    ∃ t', t.removeCase4 aug d p w = some (t', t'.root, none) ∧
      Focus m t' ctx (rotated aug d .black cp X N F.blacken p w vp vw) := by
  have hp := focus_branch.mpr h
  have h₁ := focus_branch_flip.mpr ((focus_branch_flip.mp hp).setColor cp)
  have h₂ := h₁.setColor .black
  have hfar := (focus_branch_flip.mp h₂).node_eq
  have h₃ := (focus_branch_flip.mp (focus_branch_flip.mp h₂)).setColorIf_black
  obtain ⟨t₄, hrot, h₄⟩ := (focus_branch_flip.mpr (focus_branch_flip.mpr h₃)).rotate aug
  obtain ⟨r, hroot, hpar⟩ := h₄.exists_root (rootId_branch ..)
  refine ⟨t₄, ?_, h₄⟩
  rw [removeCase4, hp.node_eq, color_ofSides]
  simp only [hfar, child_flip_ofSides, hrot, bind_eq_bind, bind_some, hroot, hpar]
  rfl

variable {N' W : ColorTree (ι × δ)} {c' cn cf : Color} {n : Nat}

theorem removeCase3_spec
    (h : Focus m t (⟨d, cp, (p, vp), branch d c (branch d c' N (q, vq) N') (w, vw) F⟩ :: ctx) X) :
    ∃ t', t.removeCase3 aug d p w = some (t', q) ∧
      Focus m t' (⟨d, cp, (p, vp), rotated aug d.flip .red .black F N' N w q vw vq⟩ :: ctx) X := by
  have hw := focus_branch_flip.mp (focus_branch.mpr h)
  have h₁ := focus_branch.mpr ((focus_branch.mp hw).setColor .black)
  have h₂ := h₁.setColor .red
  rw [← branch_flip d .red, ← branch_flip d .black] at h₂
  obtain ⟨t₃, hrot, h₃⟩ := h₂.rotate aug
  refine ⟨t₃, ?_, focus_branch.mp (focus_branch_flip.mpr h₃)⟩
  rw [removeCase3, hw.node_eq, child_ofSides, rootId_branch]
  simp only [hrot, bind_eq_bind, bind_some]
  rw [h₃.above_eq, child_ofSides, rotated, rootId_branch]
  rfl

theorem removeCases_case2 (h : Focus m t (⟨d, cp, (p, vp), branch d c N (w, vw) F⟩ :: ctx) X)
    (hN : N.rootColor = .black) (hF : F.rootColor = .black) :
    ∃ t', t.removeCases aug d p w = some (t', some p, aboveId ctx) ∧
      Focus m t' ctx (branch d cp X (p, vp) (branch d .red N (w, vw) F)) := by
  have hw := focus_branch_flip.mp (focus_branch.mpr h)
  have h₁ := focus_branch_flip.mpr (hw.setColor .red)
  refine ⟨_, ?_, h₁⟩
  have hnear := (focus_branch.mp hw).isBlack
  have hfar := (focus_branch_flip.mp hw).isBlack
  have hpar := h₁.node_eq
  rw [removeCases, hw.node_eq, child_ofSides, child_flip_ofSides, hnear, hfar, hN, hF]
  refine (if_pos rfl).trans ?_
  simp only [hpar, parent_ofSides]

omit [DecidableEq ι] in
theorem reshaped_case4 (hlaw : aug.Lawful core) : Reshaped aug core (branch d cp X (p, vp) (branch d c N (w, vw) F))
      (rotated aug d .black cp X N F.blacken p w vp vw) :=
  ((Reshaped.refl X).branch ((Reshaped.refl N).branch (.blacken F))).trans (.rotated hlaw cp c)

theorem removeCases_case34 (hlaw : aug.Lawful core)
    (h : Focus m t (⟨d, cp, (p, vp), branch d .black N (w, vw) F⟩ :: ctx) X)
    (hX : Balanced X .black n) (hN : Balanced N cn n) (hF : Balanced F cf n) (hred : cn = .red ∨ cf = .red) :
    ∃ t' A a B, t.removeCases aug d p w = some (t', t'.root, none) ∧
      Focus m t' ctx (branch d cp A a B) ∧ Balanced A .black (n + 1) ∧ Balanced B .black (n + 1) ∧
      Reshaped aug core (branch d cp X (p, vp) (branch d .black N (w, vw) F)) (branch d cp A a B) := by
  have hw := focus_branch_flip.mp (focus_branch.mpr h)
  have hnear := (focus_branch.mp hw).isBlack
  have hfar := (focus_branch_flip.mp hw).isBlack
  rw [hN.rootColor_eq] at hnear
  rw [hF.rootColor_eq] at hfar
  rw [removeCases, hw.node_eq, child_ofSides, child_flip_ofSides, hnear, hfar]
  cases cf with
  | red =>
    obtain ⟨t₁, hcase4, h₁⟩ := removeCase4_spec aug h
    refine ⟨t₁, _, _, _, ?_, h₁, hX.branch_black hN, hF.blacken_red, ?_⟩
    · simpa using hcase4
    · exact reshaped_case4 aug hlaw
  | black =>
    obtain rfl : cn = .red := by simpa using hred
    obtain ⟨N, ⟨q, vq⟩, N', rfl⟩ := hN.exists_branch_red d
    obtain ⟨-, hN, hN'⟩ := hN.of_branch_red
    obtain ⟨t₁, hcase3, h₁⟩ := removeCase3_spec aug h
    rw [rotated, branch_flip] at h₁
    obtain ⟨t₂, hcase4, h₂⟩ := removeCase4_spec aug h₁
    refine ⟨t₂, _, _, _, ?_, h₂, hX.branch_black hN, (hF.branch_red hN').blacken_red, ?_⟩
    · simpa [hcase3] using hcase4
    · -- the near subtree of the sibling is rotated up first
      have hcase3 : Reshaped aug core (branch d .black (branch d .red N (q, vq) N') (w, vw) F)
          (rotated aug d.flip .red .black F N' N w q vw vq) := by
        rw [← branch_flip d .black, ← branch_flip d .red]
        exact .rotated hlaw .black .red
      rw [rotated, branch_flip] at hcase3
      exact ((Reshaped.refl X).branch hcase3).trans (reshaped_case4 aug hlaw)

theorem removeRound_case1
    (h : Focus m t (⟨d, cp, (p, vp), branch d .red (branch d c N (q, vq) N') (w, vw) F⟩ :: ctx) X) :
    ∃ t' vp' vw', t.removeRound aug d p = t'.removeCases aug d p q ∧
      Focus m t' (⟨d, .red, (p, vp'), branch d c N (q, vq) N'⟩ :: ⟨d, .black, (w, vw'), F⟩ :: ctx) X ∧
      branch d .black (branch d .red X (p, vp') (branch d c N (q, vq) N')) (w, vw') F =
        rotated aug d .red .black X (branch d c N (q, vq) N') F p w vp vw := by
  have hp := focus_branch.mpr h
  have hw := (focus_branch_flip.mp hp).node_eq
  have h₁ := focus_branch_flip.mpr ((focus_branch_flip.mp hp).setColor .black)
  have h₂ := h₁.setColor .red
  obtain ⟨t₃, hrot, h₃⟩ := h₂.rotate aug
  refine ⟨t₃, _, _, ?_, focus_branch.mp (focus_branch.mp h₃), rfl⟩
  rw [removeRound, hp.node_eq, child_flip_ofSides, rootId_branch]
  simp only [bind_eq_bind, bind_some, hw, color_ofSides, if_true, hrot]
  rw [(focus_branch.mp h₃).node_eq, child_flip_ofSides, rootId_branch]
  rfl

theorem removeRound_black (h : Focus m t (⟨d, cp, (p, vp), branch d .black N (w, vw) F⟩ :: ctx) X) :
    t.removeRound aug d p = t.removeCases aug d p w := by
  have hp := focus_branch.mpr h
  have hw := (focus_branch_flip.mp hp).node_eq
  rw [removeRound, hp.node_eq, child_flip_ofSides, rootId_branch]
  simp only [bind_eq_bind, bind_some, hw, color_ofSides]
  rfl

/-- The subtree in the hole has one black node too few on every path; or it has a red root, and
    colouring it black is all that is to do. -/
def Deficit (ctx : List (Frame (ι × δ))) (X : ColorTree (ι × δ)) : Prop :=
  ∃ n c, HoleOk ctx c (n + 1) ∧
    (Balanced X .black n ∨ X.rootColor = .red ∧ Balanced X.blacken .black (n + 1))

omit [DecidableEq ι] in
theorem Deficit.blacken (h : Deficit ctx X) (hend : ctx = [] ∨ X.rootColor = .red) :
    ∃ k, Balanced (plug ctx X.blacken) .black k := by
  obtain ⟨n, c, hctx, hX | ⟨-, hX⟩⟩ := h
  · rcases hend with rfl | hred
    · exact hX.blacken
    · rw [hX.rootColor_eq] at hred
      cases hred
  · obtain ⟨k, l, hplug, hroot, hrest⟩ := hX.plug hctx fun _ => rfl
    obtain rfl : k = .black := by
      by_cases hnil : ctx = []
      · exact hroot hnil
      · exact hrest hnil
    exact ⟨l, hplug⟩

theorem removeFixup_round (rounds : Nat) (h : Focus m t (⟨d, cp, (p, vp), W⟩ :: ctx) X) (hX : X.rootColor = .black)
    (hW : rootId X ≠ rootId W) : removeFixup aug (rounds + 1) t (rootId X) (some p) =
      (t.removeRound aug d p).bind fun r => removeFixup aug rounds r.1 r.2.1 r.2.2 := by
  have hmore : rootId X ≠ t.root ∧ t.isBlack (rootId X) = true := by
    refine ⟨(h.root_ne (cons_ne_nil _ _)).symm, ?_⟩
    rw [h.isBlack, hX]
    rfl
  rw [removeFixup, if_pos hmore]
  simp [h.side_eq hW]

variable {aug} (hlaw : aug.Lawful core)
include hlaw

theorem removeCases_spec (h : Focus m t (⟨d, cp, (p, vp), branch d .black N (w, vw) F⟩ :: ctx) X)
    (hX : Balanced X .black n) (hN : Balanced N cn n) (hF : Balanced F cf n)
    (hctx : HoleOk (⟨d, cp, (p, vp), branch d .black N (w, vw) F⟩ :: ctx) c' (n + 1)) :
    ∃ t' ctx' X', t.removeCases aug d p w = some (t', rootId X', aboveId ctx') ∧ Focus m t' ctx' X' ∧
      Reshaped aug core (plug ctx (branch d cp X (p, vp) (branch d .black N (w, vw) F))) (plug ctx' X') ∧
      Deficit ctx' X' ∧ (ctx' = [] ∨ ctx' = ctx ∧ cp = .black ∨ X'.rootColor = .red) := by
  by_cases hred : cn = .red ∨ cf = .red
  · obtain ⟨t₁, A, a, B, hcas, h₁, hA, hB, hsha⟩ := removeCases_case34 aug hlaw h hX hN hF hred
    obtain ⟨k, hbal⟩ := hctx.replace a hA hB
    have htop := focus_root.mpr h₁
    refine ⟨t₁, [], _, ?_, htop, hsha.plug ctx, ⟨k, .black, .root, .inl hbal⟩, .inl rfl⟩
    rw [hcas, htop.root]
    rfl
  · obtain ⟨rfl, rfl⟩ : cn = .black ∧ cf = .black := by
      cases cn <;> cases cf <;> simp_all
    obtain ⟨t₁, hcas, h₁⟩ := removeCases_case2 aug h hN.rootColor_eq hF.rootColor_eq
    have hW : Balanced (branch d .red N (w, vw) F) .red n := hN.branch_red hF
    refine ⟨t₁, ctx, _, ?_, h₁, ?_, ?_⟩
    · rw [hcas, rootId_branch]
    · exact ((Reshaped.refl X).branch ((Reshaped.refl N).branch (.refl F))).plug ctx
    · cases hctx with
      | red _ hctx _ =>
        refine ⟨⟨n, _, hctx, .inr ⟨rootColor_branch .., ?_⟩⟩, .inr (.inr (rootColor_branch ..))⟩
        rw [blacken_branch]
        exact hX.branch_black hW
      | black _ hctx => exact ⟨⟨n + 1, _, hctx, .inl (hX.branch_black hW)⟩, .inr (.inl ⟨rfl, rfl⟩)⟩

theorem removeRound_spec (h : Focus m t (⟨d, cp, (p, vp), W⟩ :: ctx) X) (hX : Balanced X .black n)
    (hctx : HoleOk (⟨d, cp, (p, vp), W⟩ :: ctx) c' (n + 1)) :
    ∃ t' ctx' X', t.removeRound aug d p = some (t', rootId X', aboveId ctx') ∧ Focus m t' ctx' X' ∧
      Reshaped aug core (plug ctx (branch d cp X (p, vp) W)) (plug ctx' X') ∧
      Deficit ctx' X' ∧ (ctx'.length ≤ ctx.length ∨ X'.rootColor = .red) := by
  obtain ⟨cw, hW, hcw⟩ : ∃ cw, Balanced W cw (n + 1) ∧ (cw = .red → cp = .black) := by
    cases hctx with
    | red hW _ _ => exact ⟨_, hW, nofun⟩
    | black hW _ => exact ⟨_, hW, fun _ => rfl⟩
  obtain ⟨N, ⟨w, vw⟩, F, rfl⟩ := hW.exists_branch d
  cases cw with
  | black =>
    obtain ⟨-, k, cn, cf, hk, hN, hF⟩ := hW.of_branch_black
    obtain rfl : n = k := Nat.succ.inj hk
    obtain ⟨t', ctx', X', hcas, h', hsha, hdef, hlen⟩ := removeCases_spec hlaw h hX hN hF hctx
    refine ⟨t', ctx', X', ?_, h', hsha, hdef, ?_⟩
    · rw [removeRound_black aug h, hcas]
    · rcases hlen with rfl | ⟨rfl, -⟩ | hred
      · exact .inl (zero_le _)
      · exact .inl le_rfl
      · exact .inr hred
  | red =>
    obtain rfl := hcw rfl
    obtain ⟨-, hN, hF⟩ := hW.of_branch_red
    obtain ⟨N, ⟨q, vq⟩, N', rfl⟩ := hN.exists_branch d
    obtain ⟨t₁, vp', vw', hrnd, h₁, hrot⟩ := removeRound_case1 aug h
    obtain ⟨-, k, cn, cf, hk, hN₁, hN₂⟩ := hN.of_branch_black
    obtain rfl : n = k := Nat.succ.inj hk
    have hctx₁ : HoleOk (⟨d, .red, (p, vp'), branch d .black N (q, vq) N'⟩ ::
        ⟨d, .black, (w, vw'), F⟩ :: ctx) .red (n + 1) := by
      cases hctx with
      | black _ hctx => exact .red hN (.black hF hctx) (cons_ne_nil _ _)
    obtain ⟨t', ctx', X', hcas, h', hsha, hdef, hlen⟩ := removeCases_spec hlaw h₁ hX hN₁ hN₂ hctx₁
    refine ⟨t', ctx', X', ?_, h', ?_, hdef, ?_⟩
    · rw [hrnd, hcas]
    · refine Reshaped.trans (Reshaped.plug ?_ ctx) hsha
      rw [Frame.fill, hrot]
      exact .rotated hlaw .black .red
    · rcases hlen with rfl | ⟨-, hfal⟩ | hred
      · exact .inl (zero_le _)
      · cases hfal
      · exact .inr hred

/-- **`removeFixup` restores the red-black properties** of a tree with a deficit at the focus, and in
    particular never meets a null sibling. -/
theorem removeFixup_spec : ∀ (rounds : Nat) {t : LinkedTree ι δ} {ctx : List (Frame (ι × δ))}
    {X : ColorTree (ι × δ)}, Focus m t ctx X → Deficit ctx X →
    ctx.length < rounds ∨ X.rootColor = .red ∧ 0 < rounds →
    ∃ t' T', removeFixup aug rounds t (rootId X) (aboveId ctx) = some t' ∧
      Focus m t' [] T' ∧ (∃ k, Balanced T' .black k) ∧ Reshaped aug core (plug ctx X) T' := by
  intro rounds
  induction rounds with
  | zero =>
    rintro t ctx X - - (hlen | ⟨-, hlen⟩)
    · exact absurd hlen (not_lt_zero _)
    · exact absurd hlen (lt_irrefl 0)
  | succ rounds ih =>
    intro t ctx X h hdef hlen
    by_cases hend : ctx = [] ∨ X.rootColor = .red
    · -- the loop ends
      have hstop : ¬(rootId X ≠ t.root ∧ t.isBlack (rootId X) = true) := by
        rintro ⟨hroot, hbla⟩
        rcases hend with rfl | hred
        · exact hroot h.root.symm
        · rw [h.isBlack, hred] at hbla
          cases hbla
      refine ⟨_, plug ctx X.blacken, if_neg hstop, ?_, hdef.blacken hend, (Reshaped.blacken X).plug ctx⟩
      exact focus_root.mpr h.setColorIf_black
    · obtain ⟨hnil, hred⟩ := not_or.mp hend
      obtain ⟨n, c, hctx, hX | ⟨hX, -⟩⟩ := hdef
      · obtain ⟨⟨d, cp, ⟨p, vp⟩, W⟩, ctx, rfl⟩ := exists_cons_of_ne_nil hnil
        have hlen : ctx.length + 1 < rounds + 1 := by
          rcases hlen with hlen | ⟨hred', -⟩
          · exact hlen
          · exact absurd hred' hred
        obtain ⟨t₁, ctx₁, X₁, hrnd, h₁, hsha, hdef, hlen₁⟩ := removeRound_spec hlaw h hX hctx
        have hne : rootId X ≠ rootId W := by
          obtain ⟨cw, hW⟩ : ∃ cw, Balanced W cw (n + 1) := by
            cases hctx with
            | red hW _ _ | black hW _ => exact ⟨_, hW⟩
          obtain ⟨N, ⟨w, vw⟩, F, rfl⟩ := hW.exists_branch d
          rw [rootId_branch]
          intro heq
          exact h.rootId_ne heq (rootId_branch ..)
        obtain ⟨t', T', hfix, h', hbal, hsha'⟩ := ih h₁ hdef (by
          rcases hlen₁ with hlen₁ | hred₁
          · exact .inl (by omega)
          · exact .inr ⟨hred₁, by omega⟩)
        refine ⟨t', T', ?_, h', hbal, hsha.trans hsha'⟩
        rw [aboveId_cons, removeFixup_round aug rounds h hX.rootColor_eq hne, hrnd]
        exact hfix
      · exact absurd hX hred

end remove

end WebV8
