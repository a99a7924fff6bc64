import CallExpr.Proofs.Groups
import CallExpr.Proofs.Numbering

/-!
# Reading and numbering in step

Two readings of items of one shape go side by side: the second has the tokens that the numbering of the first gives.

* `Groups.SameShape`: states that differ only in what their tokens are; they close the same groups
  (`Groups.SameShape.exists_close`).
* `Groups.Placed p s g s' g'`: placing the parts with the property `p` takes the terms in `g` to those in `g'`, and the
  store `s` to `s'`. One item more (`Groups.Placed.step_char`, `Groups.Placed.push_token`) and the end of the items
  (`Groups.Placed.finish`) keep the relation.
-/

namespace CallExpr

theorem Item.exists_of_shape_append {α β : Type} {cs : List Char} {xs : List (Item α)} {ys : List (Item β)}
    (h : Item.shape (cs.map .char ++ xs) = Item.shape ys) :
    ∃ rest, ys = cs.map .char ++ rest ∧ Item.shape xs = Item.shape rest := by
  induction cs generalizing ys with
  | nil => exact ⟨ys, rfl, h⟩
  | cons c cs ih =>
    cases ys with
    | nil => cases h
    | cons y ys =>
      obtain ⟨hy, h⟩ := List.cons.inj h
      obtain ⟨rest, rfl, hrest⟩ := ih h
      cases y with
      | char c' =>
        obtain rfl : c = c' := by simpa [Item.map] using hy
        exact ⟨rest, rfl, hrest⟩
      | token b => cases hy

/-- Items of one shape have equally many tokens. -/
theorem Item.length_tokens_of_shape {α β : Type} {xs : List (Item α)} {ys : List (Item β)}
    (h : Item.shape xs = Item.shape ys) : (Item.tokens xs).length = (Item.tokens ys).length := by
  have hlength : ∀ {γ : Type} (zs : List (Item γ)), (Item.tokens zs).length = (Item.tokens (Item.shape zs)).length := by
    intro γ zs
    induction zs with
    | nil => rfl
    | cons z zs ih =>
      cases z with
      | char c => exact ih
      | token a => exact congrArg (· + 1) ih
  rw [hlength xs, h, ← hlength ys]

theorem Item.shape_reverse {α : Type} (xs : List (Item α)) : Item.shape xs.reverse = (Item.shape xs).reverse := by
  simp [Item.shape]

theorem Item.shape_append {α : Type} (xs ys : List (Item α)) :
    Item.shape (xs ++ ys) = Item.shape xs ++ Item.shape ys := by
  simp [Item.shape]

theorem Item.shape_flatten {α : Type} (xss : List (List (Item α))) :
    Item.shape xss.flatten = (xss.map Item.shape).flatten := by
  rw [Item.shape, List.map_flatten]
  rfl

theorem nameBefore_of_shape {α β : Type} {xs : List (Item α)} {ys : List (Item β)}
    (h : Item.shape xs = Item.shape ys) : nameBefore xs = nameBefore ys := by
  rw [← nameBefore_map (fun _ => ()) xs, ← nameBefore_map (fun _ => ()) ys]
  exact congrArg nameBefore h

namespace Store

variable {p : Term → Bool} {s s' : Store}

theorem length_placeAll (p : Term → Bool) (s : Store) (ts : List Term) : (s.placeAll p ts).2.length = ts.length := by
  induction ts generalizing s with
  | nil => rfl
  | cons t ts ih => simp [placeAll, ih]

theorem placeAll_append_eq_iff {ts us ts' us' : List Term} (hlength : ts.length = ts'.length) :
    s.placeAll p (ts ++ us) = (s', ts' ++ us') ↔
      (s.placeAll p ts).2 = ts' ∧ (s.placeAll p ts).1.placeAll p us = (s', us') := by
  rw [placeAll_append, Prod.mk.injEq]
  constructor
  · rintro ⟨hs, happend⟩
    obtain ⟨hts, hus⟩ := List.append_inj happend (by rw [length_placeAll, hlength])
    exact ⟨hts, Prod.ext hs hus⟩
  · rintro ⟨hts, hus⟩
    rw [hus, hts]
    exact ⟨rfl, rfl⟩

/-- Arguments of one shape: placing the tokens is placing the arguments. -/
theorem placeAll_arguments (hp : ∀ name, p (.variable name) = false) {arguments others : List (Argument Term)}
    (hshape : Argument.shape arguments = Argument.shape others)
    (h : s.placeAll p (Argument.tokens arguments) = (s', Argument.tokens others)) :
    s.placeAll p (arguments.map Argument.term) = (s', others.map Argument.term) := by
  induction arguments generalizing s others with
  | nil =>
    cases others with
    | nil => exact h
    | cons a others => cases hshape
  | cons a arguments ih =>
    cases others with
    | nil => cases hshape
    | cons b others =>
      obtain ⟨hab, hothers⟩ := List.cons.inj hshape
      cases a with
      | token t =>
        cases b with
        | word w => cases hab
        | token u =>
          obtain ⟨hs, htokens⟩ := Prod.mk.inj h
          obtain ⟨hu, hrest⟩ := List.cons.inj htokens
          have ih := ih hothers (Prod.ext hs hrest)
          simp only [List.map_cons, Argument.term, placeAll, ih]
          rw [hu]
      | word w =>
        cases b with
        | token u => cases hab
        | word w' =>
          obtain rfl : w = w' := by simpa [Argument.map] using hab
          have hplace : s.place p (.variable w) = (s, .variable w) := place_of_neg (hp w) (by simp)
          have ih := ih hothers h
          simp only [List.map_cons, Argument.term, placeAll, hplace, ih]

end Store

namespace Groups

variable {d : Char} {p : Term → Bool} {s s' s'' : Store} {g g' h h' : Groups}

/-- The states differ only in what their tokens are. -/
structure SameShape (g g' : Groups) : Prop where
  inner : Item.shape g.inner = Item.shape g'.inner
  outer : g.outer.map Item.shape = g'.outer.map Item.shape

/-- States of one shape close their groups together, with arguments of one shape. -/
theorem SameShape.exists_close (hshape : SameShape g g') (hclose : g.close d = some h) :
    ∃ name before outer arguments before' outer' others,
      g.outer = (name.reverse.map .char ++ before) :: outer ∧ Argument.ofBody d g.inner.reverse = .ok arguments ∧
      h = ⟨.token (.call (.ofList name) (arguments.map Argument.term)) :: before, outer⟩ ∧
      g'.outer = (name.reverse.map .char ++ before') :: outer' ∧ Argument.ofBody d g'.inner.reverse = .ok others ∧
      g'.close d = some ⟨.token (.call (.ofList name) (others.map Argument.term)) :: before', outer'⟩ ∧
      Item.shape before = Item.shape before' ∧ outer.map Item.shape = outer'.map Item.shape ∧
      Argument.shape arguments = Argument.shape others := by
  obtain ⟨name, before, outer, arguments, houter, hname, hnil, hbody, rfl⟩ := close_eq_some_iff.mp hclose
  have hinner : Item.shape g.inner.reverse = Item.shape g'.inner.reverse := by
    rw [Item.shape_reverse, hshape.inner, Item.shape_reverse]
  obtain ⟨others, hothers, harguments⟩ := Argument.ofBody_eq_ok_of_shape hinner hbody
  have houters := hshape.outer
  rw [houter, List.map_cons] at houters
  cases houter' : g'.outer with
  | nil => rw [houter'] at houters; cases houters
  | cons enclosing outer' =>
    rw [houter', List.map_cons] at houters
    obtain ⟨henclosing, hrest⟩ := List.cons.inj houters
    obtain ⟨before', rfl, hbefore⟩ := Item.exists_of_shape_append henclosing
    have hnil' : nameBefore before' = [] := by rw [← nameBefore_of_shape hbefore, hnil]
    exact ⟨name, before, outer, arguments, before', outer', others, houter, hbody, rfl, rfl, hothers,
      close_eq_some_iff.mpr ⟨name, before', outer', others, houter', hname, hnil', hothers, rfl⟩, hbefore, hrest,
      harguments⟩

theorem SameShape.symm (hshape : SameShape g g') : SameShape g' g :=
  ⟨hshape.inner.symm, hshape.outer.symm⟩

/-- The terms in a state, from left to right. -/
def tokens (g : Groups) : List Term :=
  (Item.tokens (g.inner ++ g.outer.flatten)).reverse

/-- Placing the parts with the property takes the terms in `g` to those in `g'`. -/
structure Placed (p : Term → Bool) (s : Store) (g : Groups) (s' : Store) (g' : Groups) : Prop where
  shape : SameShape g g'
  tokens : s.placeAll p g.tokens = (s', g'.tokens)

theorem placed_start (p : Term → Bool) (s : Store) : Placed p s {} s {} :=
  ⟨⟨rfl, rfl⟩, rfl⟩

theorem tokens_push_token (g : Groups) (t : Term) : (g.push (.token t)).tokens = g.tokens ++ [t] := by
  simp [tokens, push]

theorem tokens_close (name : List Char) (inner before : List (Item Term)) (outer : List (List (Item Term))) :
    tokens ⟨inner, (name.reverse.map .char ++ before) :: outer⟩ =
      tokens ⟨before, outer⟩ ++ Item.tokens inner.reverse := by
  simp [tokens, List.map_reverse, Item.tokens_append]

namespace Placed

theorem push_char (hp : Placed p s g s' g') (c : Char) : Placed p s (g.push (.char c)) s' (g'.push (.char c)) :=
  ⟨⟨congrArg (_ :: ·) hp.shape.inner, hp.shape.outer⟩, hp.tokens⟩

theorem push_token (hp : Placed p s g s' g') {t t' : Term} (ht : s'.place p t = (s'', t')) :
    Placed p s (g.push (.token t)) s'' (g'.push (.token t')) where
  shape := ⟨congrArg (_ :: ·) hp.shape.inner, hp.shape.outer⟩
  tokens := by
    rw [tokens_push_token, tokens_push_token, Store.placeAll_append, hp.tokens]
    simp [Store.placeAll, ht]

theorem openGroup (hp : Placed p s g s' g') : Placed p s ⟨[], g.inner :: g.outer⟩ s' ⟨[], g'.inner :: g'.outer⟩ where
  shape := ⟨rfl, by simp [hp.shape.inner, hp.shape.outer]⟩
  tokens := hp.tokens

/-- A group ends, and its call is not stored as a whole. -/
theorem close (hp : Placed p s g s' g') (hvariable : ∀ name, p (.variable name) = false)
    (hclose : g.close d = some h)
    (hcall : ∀ name arguments rest, h.inner = .token (.call name arguments) :: rest →
      p (.call name arguments) = false) :
    ∃ h', g'.close d = some h' ∧ Placed p s h s' h' := by
  obtain ⟨name, before, outer, arguments, before', outer', others, houter, hbody, rfl, houter', hbody', hclose',
    hbefore, houters, hshape⟩ := hp.shape.exists_close hclose
  refine ⟨_, hclose', ⟨⟨congrArg (_ :: ·) hbefore, houters⟩, ?_⟩⟩
  obtain ⟨inner, _⟩ := g
  obtain ⟨inner', _⟩ := g'
  dsimp only at houter houter'
  subst houter houter'
  have hlength : (Groups.tokens ⟨before, outer⟩).length = (Groups.tokens ⟨before', outer'⟩).length := by
    have hflat : Item.shape (before ++ outer.flatten) = Item.shape (before' ++ outer'.flatten) := by
      rw [Item.shape_append, Item.shape_append, hbefore, Item.shape_flatten, houters, ← Item.shape_flatten]
    rw [Groups.tokens, List.length_reverse, Item.length_tokens_of_shape hflat, Groups.tokens, List.length_reverse]
  have htokens := hp.tokens
  rw [tokens_close, tokens_close, ← Argument.tokens_ofBody hbody, ← Argument.tokens_ofBody hbody',
    Store.placeAll_append_eq_iff hlength] at htokens
  have hplace := Store.placeAll_arguments hvariable hshape htokens.2
  have hcall' := tokens_push_token ⟨before, outer⟩ (.call (.ofList name) (arguments.map Argument.term))
  have hcall'' := tokens_push_token ⟨before', outer'⟩ (.call (.ofList name) (others.map Argument.term))
  rw [push] at hcall' hcall''
  rw [hcall', hcall'', Store.placeAll_append_eq_iff hlength]
  refine ⟨htokens.1, ?_⟩
  simp [Store.placeAll, Store.place_call_of_neg (hcall _ _ _ rfl), hplace]

/-- A group that does not end in one state does not end in the other. -/
theorem close_eq_none (hp : Placed p s g s' g') (hclose : g.close d = none) : g'.close d = none := by
  rw [Option.eq_none_iff_forall_ne_some]
  intro h' hclose'
  obtain ⟨_, _, _, _, _, _, _, _, _, _, _, _, hsome, _⟩ := hp.shape.symm.exists_close hclose'
  rw [hclose] at hsome
  cases hsome

/-- One character more: both readings go on, or neither does. -/
theorem step_char (hp : Placed p s g s' g') (hvariable : ∀ name, p (.variable name) = false) {c : Char}
    (hcall : c = ')' → ∀ h name arguments rest, g.close d = some h →
      h.inner = .token (.call name arguments) :: rest → p (.call name arguments) = false) :
    Option.Rel (fun h h' => Placed p s h s' h') (g.step d (.char c)) (g'.step d (.char c)) := by
  by_cases hopen : c = '('
  · subst hopen
    exact .some hp.openGroup
  · by_cases hc : c = ')'
    · subst hc
      rw [step_close, step_close]
      cases hclose : g.close d with
      | none =>
        rw [hp.close_eq_none hclose]
        exact .none
      | some h =>
        obtain ⟨h', hclose', hplaced⟩ := hp.close hvariable hclose fun name arguments rest =>
          hcall rfl h name arguments rest hclose
        rw [hclose']
        exact .some hplaced
    · have hparen : (Item.char c : Item Term).isParen = false := Item.isParen_char.mpr ⟨hopen, hc⟩
      rw [step_of_not_paren hparen, step_of_not_paren hparen]
      exact .some (hp.push_char c)

/-- At the end the terms are placed. -/
theorem finish (hp : Placed p s g s' g') (hvariable : ∀ name, p (.variable name) = false) :
    Option.Rel (fun ts ts' => s.placeAll p ts = (s', ts')) (g.finish d) (g'.finish d) := by
  have houter : g.outer.isEmpty = g'.outer.isEmpty := by
    have := congrArg List.isEmpty hp.shape.outer
    simpa using this
  have hinner : Item.shape g.inner.reverse = Item.shape g'.inner.reverse := by
    rw [Item.shape_reverse, hp.shape.inner, Item.shape_reverse]
  unfold Groups.finish
  rw [← houter]
  split
  · next hempty =>
    cases hread : Argument.ofTopLevel d g.inner.reverse with
    | error e =>
      cases hread' : Argument.ofTopLevel d g'.inner.reverse with
      | error e' => exact .none
      | ok others =>
        obtain ⟨arguments, hok, -⟩ := Argument.ofTopLevel_eq_ok_of_shape hinner.symm hread'
        rw [hread] at hok
        cases hok
    | ok arguments =>
      obtain ⟨others, hread', hshape⟩ := Argument.ofTopLevel_eq_ok_of_shape hinner hread
      rw [hread']
      refine .some (Store.placeAll_arguments hvariable hshape ?_)
      have htokens := hp.tokens
      obtain ⟨inner, outer⟩ := g
      obtain ⟨inner', outer'⟩ := g'
      obtain rfl : outer = [] := List.isEmpty_iff.mp hempty
      obtain rfl : outer' = [] := List.isEmpty_iff.mp (houter.symm.trans hempty)
      rw [Argument.tokens_ofTopLevel hread, Argument.tokens_ofTopLevel hread']
      simpa [Groups.tokens] using htokens
  · exact .none

end Placed

end Groups

end CallExpr
