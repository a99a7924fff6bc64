import CallExpr.Proofs.Innermost

/-!
# A source read in one go

Passes resolve calls from the inside out. The same terms come out of one reading from left to right, with a stack of
the groups that are open.

* `Groups.run`: one item after the other; a `)` turns its group and the name before it into one token.
* `readTerms`: the terms of items, if every group is a call and what is left at the end is readable.
* `Groups.close_eq_some_iff`, `Groups.run_call`: what a closed group does.
* `Groups.Covers`: the items that a state was read from. What holds of every closed group holds of what the state covers
  (`Groups.covers_run`).
-/

namespace CallExpr

/-- The term of an argument: a word is a variable. -/
def Argument.term : Argument Term → Term
  | .token t => t
  | .word s => .variable s

/-- The groups that are open. The items of each stand with the nearest first. -/
structure Groups where
  /-- The items after the last open parenthesis. -/
  inner : List (Item Term) := []
  /-- The items before each open parenthesis, the innermost first. -/
  outer : List (List (Item Term)) := []

namespace Groups

/-- Puts an item into the innermost group. -/
def push (g : Groups) (x : Item Term) : Groups :=
  ⟨x :: g.inner, g.outer⟩

/-- The group ends: with the name before it, it is a call. -/
def close (d : Char) (g : Groups) : Option Groups :=
  match g.outer with
  | [] => none
  | before :: outer =>
    let name := nameBefore before
    if name.isEmpty then none
    else match Argument.ofBody d g.inner.reverse with
      | .error _ => none
      | .ok arguments =>
        some ⟨.token (.call (.ofList name) (arguments.map Argument.term)) :: before.drop name.length, outer⟩

/-- Reads one item. -/
def step (d : Char) (g : Groups) (x : Item Term) : Option Groups :=
  if x.is '(' then some ⟨[], g.inner :: g.outer⟩
  else if x.is ')' then g.close d
  else some (g.push x)

/-- Reads items from left to right. -/
def run (d : Char) (g : Groups) (items : List (Item Term)) : Option Groups :=
  items.foldlM (step d) g

/-- The terms at the end, if no group is open. -/
def finish (d : Char) (g : Groups) : Option (List Term) :=
  if g.outer.isEmpty then (Argument.ofTopLevel d g.inner.reverse).toOption.map (List.map Argument.term)
  else none

end Groups

/-- The terms of items, read in one go. -/
def readTerms (d : Char) (items : List (Item Term)) : Option (List Term) :=
  (Groups.run d {} items).bind (Groups.finish d)

namespace Groups

variable {d : Char} {g g' : Groups} {items body more text inside : List (Item Term)} {name : List Char}

/-! ## One step -/

@[simp]
theorem run_nil : run d g [] = some g := rfl

@[simp]
theorem run_cons (x : Item Term) : run d g (x :: items) = (step d g x).bind fun g' => run d g' items := by
  simp [run]

theorem run_append : run d g (items ++ more) = (run d g items).bind fun g' => run d g' more := by
  simp [run]

theorem step_open : step d g (.char '(') = some ⟨[], g.inner :: g.outer⟩ := rfl

theorem step_close : step d g (.char ')') = g.close d := rfl

theorem step_of_not_paren {x : Item Term} (h : x.isParen = false) : step d g x = some (g.push x) := by
  obtain ⟨h₁, h₂⟩ : x.is '(' = false ∧ x.is ')' = false := by simpa [Item.isParen] using h
  simp [step, h₁, h₂]

/-- A parenthesis opens or closes, and other items are kept. -/
theorem step_cases {x : Item Term} (h : step d g x = some g') :
    (x = .char '(' ∧ g' = ⟨[], g.inner :: g.outer⟩) ∨ (x = .char ')' ∧ g.close d = some g') ∨
      (x.isParen = false ∧ g' = g.push x) := by
  unfold step at h
  split at h
  · next hx => exact Or.inl ⟨Item.is_eq_true_iff.mp hx, (Option.some.inj h).symm⟩
  · split at h
    · next hx => exact Or.inr (Or.inl ⟨Item.is_eq_true_iff.mp hx, h⟩)
    · next h₁ h₂ => exact Or.inr (Or.inr ⟨by simp [Item.isParen, h₁, h₂], (Option.some.inj h).symm⟩)

/-- **What a closed group does.** -/
theorem close_eq_some_iff : g.close d = some g' ↔ ∃ name before outer arguments,
    g.outer = (name.reverse.map .char ++ before) :: outer ∧ Grammar.IsName name ∧ nameBefore before = [] ∧
      Argument.ofBody d g.inner.reverse = .ok arguments ∧
      g' = ⟨.token (.call (.ofList name) (arguments.map Argument.term)) :: before, outer⟩ := by
  unfold close
  constructor
  · intro h
    split at h
    · cases h
    · next enclosing outer houter =>
      dsimp only at h
      split at h
      · cases h
      · next hname =>
        split at h
        · cases h
        · next arguments hbody =>
          obtain ⟨before, hbefore, hnil⟩ := exists_nameBefore enclosing
          have hname : nameBefore enclosing ≠ [] := by simpa using hname
          have hdrop : enclosing.drop (nameBefore enclosing).length = before := by
            have := congrArg (List.drop (nameBefore enclosing).length) hbefore
            rwa [List.drop_left' (by simp)] at this
          refine ⟨nameBefore enclosing, before, outer, arguments, ?_, isName_nameBefore hname, hnil, hbody, ?_⟩
          · rw [← hbefore, houter]
          · rw [← Option.some.inj h, hdrop]
  · rintro ⟨name, before, outer, arguments, houter, hname, hnil, hbody, rfl⟩
    have hbefore : nameBefore (name.reverse.map .char ++ before) = name := nameBefore_name hname hnil
    simp only [houter, hbefore, hbody]
    rw [if_neg (by simpa using hname.ne_nil), List.drop_left' (by simp)]

/-- Items without parentheses are kept. -/
theorem run_of_not_paren (h : ∀ x ∈ items, x.isParen = false) :
    run d g items = some ⟨items.reverse ++ g.inner, g.outer⟩ := by
  induction items generalizing g with
  | nil => rfl
  | cons x items ih =>
    obtain ⟨hx, h⟩ := List.forall_mem_cons.mp h
    rw [run_cons, step_of_not_paren hx, Option.bind_some, ih h]
    simp [push]

/-- **A call is read to one token**, if its body is read to items that stand for its arguments. -/
theorem run_call (hname : Grammar.IsName name) (hg : nameBefore g.inner = [])
    (hbody : ∀ outer, run d ⟨[], outer⟩ body = some ⟨items.reverse, outer⟩) :
    run d g (name.map .char ++ .char '(' :: body ++ [.char ')']) =
      (Argument.ofBody d items).toOption.map fun arguments =>
        g.push (.token (.call (.ofList name) (arguments.map Argument.term))) := by
  have hparen : ∀ x ∈ name.map Item.char, (x : Item Term).isParen = false := isParen_of_isNameChar hname.isNameChar
  rw [List.append_assoc, run_append, run_of_not_paren hparen, Option.bind_some, List.cons_append, run_cons, step_open,
    Option.bind_some, run_append, hbody, Option.bind_some, run_cons, step_close]
  cases hargs : Argument.ofBody d items with
  | error e =>
    have hclose : close d ⟨items.reverse, ((name.map .char).reverse ++ g.inner) :: g.outer⟩ = none := by
      rw [Option.eq_none_iff_forall_ne_some]
      intro g' hg'
      obtain ⟨_, _, _, arguments, _, _, _, hok, _⟩ := close_eq_some_iff.mp hg'
      rw [List.reverse_reverse, hargs] at hok
      cases hok
    simp [hclose, Except.toOption]
  | ok arguments =>
    have hclose : close d ⟨items.reverse, ((name.map .char).reverse ++ g.inner) :: g.outer⟩ =
        some (g.push (.token (.call (.ofList name) (arguments.map Argument.term)))) := by
      refine close_eq_some_iff.mpr ⟨name, g.inner, g.outer, arguments, ?_, hname, hg, ?_, rfl⟩
      · rw [List.map_reverse]
      · rw [List.reverse_reverse, hargs]
    simp [hclose, Except.toOption]

end Groups

/-! ## What a state was read from -/

/-- The items were read from the text: a token stands for itself, or for a part of the text of which `P` holds. -/
inductive Covers (P : List (Item Term) → Term → Prop) : (items text : List (Item Term)) → Prop
  | nil : Covers P [] []
  | item {x : Item Term} {items text : List (Item Term)} :
    x.isParen = false → Covers P items text → Covers P (x :: items) (x :: text)
  | part {inside items text : List (Item Term)} {t : Term} :
    P inside t → Covers P items text → Covers P (.token t :: items) (inside ++ text)

namespace Covers

variable {P Q : List (Item Term) → Term → Prop} {items more text inside : List (Item Term)} {cs : List Char}

theorem append (h : Covers P items text) (hmore : Covers P more inside) :
    Covers P (items ++ more) (text ++ inside) := by
  induction h with
  | nil => exact hmore
  | item hx _ ih => exact .item hx ih
  | part hp _ ih =>
    rw [List.append_assoc]
    exact .part hp ih

/-- A split of the items splits the text. -/
theorem split (h : Covers P (items ++ more) text) :
    ∃ before after, text = before ++ after ∧ Covers P items before ∧ Covers P more after := by
  induction items generalizing text with
  | nil => exact ⟨[], text, rfl, .nil, h⟩
  | cons x items ih =>
    cases h with
    | item hx h =>
      obtain ⟨before, after, rfl, hb, ha⟩ := ih h
      exact ⟨x :: before, after, rfl, .item hx hb, ha⟩
    | part hp h =>
      obtain ⟨before, after, rfl, hb, ha⟩ := ih h
      exact ⟨_ ++ before, after, by rw [List.append_assoc], .part hp hb, ha⟩

/-- Characters cover themselves. -/
theorem eq_of_chars (h : Covers P (cs.map .char) text) : text = cs.map .char := by
  induction cs generalizing text with
  | nil => cases h; rfl
  | cons c cs ih =>
    cases h with
    | item _ h => rw [ih h]; rfl

theorem not_paren (h : Covers P items text) : ∀ x ∈ items, x.isParen = false := by
  induction h with
  | nil => simp
  | item hx _ ih => exact List.forall_mem_cons.mpr ⟨hx, ih⟩
  | part _ _ ih => exact List.forall_mem_cons.mpr ⟨rfl, ih⟩

/-- Items with no token of which `P` can hold cover themselves. -/
theorem eq_of_tokens (h : Covers P items text) (hP : ∀ t ∈ Item.tokens items, ∀ inside, ¬ P inside t) :
    text = items := by
  induction h with
  | nil => rfl
  | @item x items text _ _ ih =>
    rw [ih fun t ht => hP t ?_]
    cases x with
    | char c => exact ht
    | token a => exact List.mem_cons_of_mem _ ht
  | part hp _ _ => exact absurd hp (hP _ List.mem_cons_self _)

theorem nameRun_congr {left left' : List (Item Term)} (h : nameRun left = nameRun left') (items : List (Item Term)) :
    nameRun (items ++ left) = nameRun (items ++ left') := by
  induction items with
  | nil => exact h
  | cons x items ih =>
    cases x with
    | token t => rfl
    | char c => simp only [List.cons_append, nameRun, ih]

/-- The same name stands before the end of the items and of the text, if every part ends with a parenthesis. -/
theorem nameRun_eq (hP : ∀ {inside t}, P inside t → ∃ init, inside = init ++ [.char ')']) (h : Covers P items text)
    (left left' : List (Item Term)) (hleft : nameRun left = nameRun left') :
    nameRun (text.reverse ++ left) = nameRun (items.reverse ++ left') := by
  induction h generalizing left left' with
  | nil => exact hleft
  | @item x items text _ _ ih =>
    simp only [List.reverse_cons, List.append_assoc, List.singleton_append]
    exact ih _ _ (nameRun_congr hleft [x])
  | @part inside items text t hp _ ih =>
    obtain ⟨init, rfl⟩ := hP hp
    simp only [List.reverse_append, List.reverse_cons, List.append_assoc, List.singleton_append]
    exact ih _ _ (by simp [nameRun, isNameChar])

end Covers

namespace Groups

variable {P : List (Item Term) → Term → Prop} {d : Char} {g g' : Groups}
  {before items more text inside : List (Item Term)} {outer : List (List (Item Term))}

/-- The state was read from the text, with each open group after its parenthesis. -/
inductive Covers (P : List (Item Term) → Term → Prop) : Groups → (text : List (Item Term)) → Prop
  | top {inner text : List (Item Term)} : CallExpr.Covers P inner.reverse text → Covers P ⟨inner, []⟩ text
  | group {inner inside before text : List (Item Term)} {outer : List (List (Item Term))} :
    CallExpr.Covers P inner.reverse inside → Covers P ⟨before, outer⟩ text →
    Covers P ⟨inner, before :: outer⟩ (text ++ .char '(' :: inside)

/-- `P` holds of each call that is made from items of which it holds. -/
def Closed (d : Char) (P : List (Item Term) → Term → Prop) : Prop :=
  ∀ {name : List Char} {items inside : List (Item Term)} {arguments : List (Argument Term)},
    Grammar.IsName name → CallExpr.Covers P items inside → Argument.ofBody d items = .ok arguments →
    P (name.map .char ++ .char '(' :: inside ++ [.char ')']) (.call (.ofList name) (arguments.map Argument.term))

theorem Covers.append (h : Covers P ⟨before, outer⟩ text) (hmore : CallExpr.Covers P more inside) :
    Covers P ⟨more.reverse ++ before, outer⟩ (text ++ inside) := by
  cases h with
  | top h => exact .top (by simpa using h.append hmore)
  | group h hrest =>
    rw [List.append_assoc, List.cons_append]
    exact .group (by simpa using h.append hmore) hrest

theorem Covers.split (h : Covers P ⟨more.reverse ++ before, outer⟩ text) :
    ∃ rest inside, text = rest ++ inside ∧ Covers P ⟨before, outer⟩ rest ∧ CallExpr.Covers P more inside := by
  cases h with
  | top h =>
    rw [List.reverse_append, List.reverse_reverse] at h
    obtain ⟨rest, inside, rfl, hrest, hinside⟩ := h.split
    exact ⟨rest, inside, rfl, .top hrest, hinside⟩
  | group h hrest =>
    rw [List.reverse_append, List.reverse_reverse] at h
    obtain ⟨rest, inside, rfl, hinner, hinside⟩ := h.split
    exact ⟨_, inside, by rw [List.append_assoc, List.cons_append], .group hinner hrest, hinside⟩

/-- One step covers one more item. -/
theorem Covers.step (hP : Closed d P) (h : g.Covers P text) {x : Item Term} (hstep : Groups.step d g x = some g') :
    g'.Covers P (text ++ [x]) := by
  rcases step_cases hstep with ⟨rfl, rfl⟩ | ⟨rfl, hclose⟩ | ⟨hx, rfl⟩
  · exact .group .nil h
  · obtain ⟨name, before, outer, arguments, houter, hname, -, hbody, rfl⟩ := close_eq_some_iff.mp hclose
    obtain ⟨inner, _⟩ := g
    obtain rfl : _ = (name.reverse.map .char ++ before) :: outer := houter
    cases h with
    | @group _ inside _ text _ hinner hrest =>
      rw [List.map_reverse] at hrest
      obtain ⟨rest, cs, rfl, hbefore, hcs⟩ := hrest.split
      obtain rfl := hcs.eq_of_chars
      have hcall : CallExpr.Covers P [.token (.call (.ofList name) (arguments.map Argument.term))]
          (name.map .char ++ .char '(' :: inside ++ [.char ')']) := by
        simpa using CallExpr.Covers.part (hP hname hinner hbody) .nil
      simpa using hbefore.append hcall
  · have hitem : CallExpr.Covers P [x] [x] := .item hx .nil
    exact h.append hitem

/-- **A run covers the items that it reads.** -/
theorem covers_run (hP : Closed d P) (h : g.Covers P text) (hrun : run d g items = some g') :
    g'.Covers P (text ++ items) := by
  induction items generalizing g text with
  | nil =>
    obtain rfl := Option.some.inj hrun
    simpa using h
  | cons x items ih =>
    rw [run_cons, Option.bind_eq_some_iff] at hrun
    obtain ⟨g₁, hstep, hrun⟩ := hrun
    simpa using ih (h.step hP hstep) hrun

/-- The name before the end of the text is the one in the innermost group. -/
theorem Covers.nameBefore_eq (hP : ∀ {inside t}, P inside t → ∃ init, inside = init ++ [.char ')'])
    (h : g.Covers P text) : nameBefore text.reverse = nameBefore g.inner := by
  suffices hrun : nameRun text.reverse = nameRun g.inner by rw [nameBefore, hrun, nameBefore]
  cases h with
  | top h => simpa using h.nameRun_eq hP [] [] rfl
  | @group _ _ _ text _ h _ =>
    simpa using h.nameRun_eq hP (.char '(' :: text.reverse) [] (by simp [nameRun, isNameChar])

end Groups

/-- Terms that were read come from a state without open groups. -/
theorem readTerms_eq_some_iff {d : Char} {items : List (Item Term)} {terms : List Term} :
    readTerms d items = some terms ↔ ∃ inner arguments, Groups.run d {} items = some ⟨inner, []⟩ ∧
      Argument.ofTopLevel d inner.reverse = .ok arguments ∧ arguments.map Argument.term = terms := by
  rw [readTerms, Option.bind_eq_some_iff]
  constructor
  · rintro ⟨⟨inner, outer⟩, hrun, hfinish⟩
    unfold Groups.finish at hfinish
    split at hfinish
    · next houter =>
      obtain rfl : outer = [] := by simpa using houter
      cases h : Argument.ofTopLevel d inner.reverse with
      | error e => simp [h, Except.toOption] at hfinish
      | ok arguments => exact ⟨inner, arguments, hrun, h, by simpa [h, Except.toOption] using hfinish⟩
    · cases hfinish
  · rintro ⟨inner, arguments, hrun, h, rfl⟩
    exact ⟨_, hrun, by simp [Groups.finish, h, Except.toOption]⟩

end CallExpr
