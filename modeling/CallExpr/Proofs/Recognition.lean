import CallExpr.Proofs.Derivations
import CallExpr.Source.Reading

/-!
# What derives is read

Items are read part by part, each part wherever no name ends before it.

* `Flattens d items flat`: the items are read to `flat`, in which each call has become one token.
* `ReadsArgument`, `ReadsArguments`, `ReadsBody`, `ReadsTop`, `ReadsForest`: what is read stands for these terms. There
  is one lemma for each way to put such parts together.
* `readTerms_eq_some_iff_isForest`: with a delimiter that stands in no name, exactly what derives from the grammar is
  read.

If the delimiter can stand in a name, a name after it has to be set off by a space (`ReadsArguments.cons`).
-/

namespace CallExpr

open Grammar

theorem Dialect.isUsable_iff {d : Char} :
    isUsable d = true ↔ Text.isBlank d = false ∧ (d ≠ '(' ∧ d ≠ ')') ∧ d ≠ quoteMark := by
  simp [isUsable, and_assoc]

theorem Dialect.ne_space_of_isUsable {d : Char} (h : isUsable d = true) : d ≠ ' ' := by
  rintro rfl
  exact absurd (isUsable_iff.mp h).1 (by decide)

/-! ## Spaces -/

section Spaces

variable {α : Type} {d : Char} {xs : List (Item α)}

theorem isParen_of_mem_spaces {n : Nat} {x : Item α} (h : x ∈ spaces n) : x.isParen = false := by
  rw [List.eq_of_mem_replicate h]
  rfl

theorem is_of_mem_spaces (hd : d ≠ ' ') {n : Nat} {x : Item α} (h : x ∈ spaces n) : x.is d = false := by
  rw [List.eq_of_mem_replicate h]
  simpa [Item.is] using hd.symm

/-- Spaces around items are no delimiters. -/
theorem is_of_mem_spaced (hd : d ≠ ' ') (m n : Nat) (h : ∀ x ∈ xs, x.is d = false) :
    ∀ x ∈ spaces m ++ xs ++ spaces n, x.is d = false := by
  rw [List.forall_mem_append, List.forall_mem_append]
  exact ⟨⟨fun _ => is_of_mem_spaces hd, h⟩, fun _ => is_of_mem_spaces hd⟩

theorem reverse_spaces (n : Nat) : (spaces n : List (Item α)).reverse = spaces n :=
  List.reverse_replicate

/-- No name ends after spaces, if none ends before them. -/
theorem nameBefore_spaces (n : Nat) {left : List (Item α)} (h : n ≠ 0 ∨ nameBefore left = []) :
    nameBefore (spaces n ++ left) = [] := by
  cases n with
  | zero => exact h.resolve_left (by simp)
  | succ n => exact nameBefore_char (by decide) _

theorem trimSpaces_append_left (n : Nat) (xs : List (Item α)) : trimSpaces (spaces n ++ xs) = trimSpaces xs := by
  rw [trimSpaces, List.dropWhile_append_of_pos fun _ => isSpace_of_mem_spaces, trimSpaces]

/-- Trimming gives back what stands between spaces. -/
theorem trimSpaces_of_trimmed (m n : Nat) (h : Item.Trimmed xs) : trimSpaces (spaces m ++ xs ++ spaces n) = xs := by
  obtain ⟨hhead, hlast⟩ := h
  have hdrop : ∀ ys : List (Item α), (∀ x ∈ ys.head?, x.isSpace = false) → ys.dropWhile Item.isSpace = ys := by
    intro ys hys
    cases ys with
    | nil => rfl
    | cons y ys => exact List.dropWhile_cons_of_neg (by simpa using hys y rfl)
  rw [List.append_assoc, trimSpaces_append_left, trimSpaces]
  cases xs with
  | nil =>
    rw [List.nil_append, ← List.append_nil (spaces n), List.dropWhile_append_of_pos fun _ => isSpace_of_mem_spaces]
    rfl
  | cons x xs =>
    rw [hdrop (x :: xs ++ spaces n) hhead, List.reverse_append, reverse_spaces,
      List.dropWhile_append_of_pos fun _ => isSpace_of_mem_spaces, hdrop _ (by rwa [List.head?_reverse]),
      List.reverse_reverse]

/-- Spaces in front of the pieces are trimmed. -/
theorem splitOnP_spaces_append (hd : d ≠ ' ') (n : Nat) (xs : List (Item α)) :
    ((spaces n ++ xs).splitOnP (Item.is d)).map trimSpaces = (xs.splitOnP (Item.is d)).map trimSpaces := by
  have hspaces : ∀ piece : List (Item α), (∀ x ∈ piece, x.is d = false) → ∀ x ∈ spaces n ++ piece, x.is d = false := by
    intro piece hpiece x hx
    rcases List.mem_append.mp hx with hx | hx
    · exact is_of_mem_spaces hd hx
    · exact hpiece x hx
  induction xs using splitOnP_induction (p := Item.is d) with
  | one piece hpiece =>
    rw [List.splitOnP_eq_singleton (hspaces piece hpiece), List.map_singleton, trimSpaces_append_left,
      List.map_singleton]
  | cons piece x rest hpiece hx _ =>
    rw [← List.append_assoc, List.splitOnP_append_cons_of_forall_mem (hspaces piece hpiece) x hx, List.map_cons,
      trimSpaces_append_left, List.map_cons]

end Spaces

/-! ## Items that are read to other items -/

/-- Wherever no name ends, the items are read to `flat`. -/
def Flattens (d : Char) (items flat : List (Item Term)) : Prop :=
  ∀ g : Groups, nameBefore g.inner = [] → g.run d items = some ⟨flat.reverse ++ g.inner, g.outer⟩

section Flattens

variable {d : Char} {items more flat flat' : List (Item Term)}

theorem flattens_of_not_paren (h : ∀ x ∈ items, x.isParen = false) : Flattens d items items :=
  fun _ _ => Groups.run_of_not_paren h

theorem flattens_spaces (d : Char) (n : Nat) : Flattens d (spaces n) (spaces n) :=
  flattens_of_not_paren fun _ => isParen_of_mem_spaces

namespace Flattens

/-- More items, where they are read after the first. -/
theorem append_of_run (h : Flattens d items flat)
    (hmore : ∀ inner outer, nameBefore inner = [] →
      Groups.run d ⟨flat.reverse ++ inner, outer⟩ more = some ⟨flat'.reverse ++ (flat.reverse ++ inner), outer⟩) :
    Flattens d (items ++ more) (flat ++ flat') := by
  intro g hg
  rw [Groups.run_append, h g hg, Option.bind_some, hmore g.inner g.outer hg, List.reverse_append, List.append_assoc]

theorem append (h : Flattens d items flat) (hmore : Flattens d more flat')
    (hname : ∀ inner, nameBefore inner = [] → nameBefore (flat.reverse ++ inner) = []) :
    Flattens d (items ++ more) (flat ++ flat') :=
  h.append_of_run fun inner outer hinner => hmore ⟨_, outer⟩ (hname inner hinner)

theorem append_of_not_paren (h : Flattens d items flat) (hmore : ∀ x ∈ more, x.isParen = false) :
    Flattens d (items ++ more) (flat ++ more) :=
  h.append_of_run fun _ _ _ => Groups.run_of_not_paren hmore

theorem spaces_append (h : Flattens d items flat) (n : Nat) : Flattens d (spaces n ++ items) (spaces n ++ flat) := by
  refine (flattens_spaces d n).append h fun inner hinner => ?_
  rw [reverse_spaces]
  exact nameBefore_spaces n (Or.inr hinner)

/-- Only spaces are read to spaces. -/
theorem eq_of_isSpace (h : Flattens d items flat) (hflat : ∀ x ∈ flat, x.isSpace = true) : items = flat := by
  have hcovers := Groups.covers_run (P := fun _ _ => True) (fun _ _ _ => trivial) (.top .nil) (h {} rfl)
  cases hcovers with
  | top hcovers =>
    rw [List.nil_append, List.append_nil, List.reverse_reverse] at hcovers
    refine hcovers.eq_of_tokens fun t ht _ _ => ?_
    rw [Item.tokens_eq_nil_of_isSpace hflat] at ht
    cases ht

end Flattens

end Flattens

/-! ## Arguments -/

/-- The items are read to a piece that stands for the term. -/
def ReadsArgument (d : Char) (items : List (Item Term)) (t : Term) : Prop :=
  ∃ flat a, Flattens d items flat ∧ (∀ x ∈ flat, x.is d = false) ∧
    Argument.ofPiece d (trimSpaces flat) = .ok a ∧ a.term = t

/-- The items are read to pieces between delimiters that stand for the terms. -/
def ReadsArguments (d : Char) (items : List (Item Term)) (ts : List Term) : Prop :=
  ∃ flat arguments, Flattens d items flat ∧
    Argument.ofPieces d ((flat.splitOnP (Item.is d)).map trimSpaces) = .ok arguments ∧
    arguments.map Argument.term = ts

/-- The items are read to the body of a call with these arguments. -/
def ReadsBody (d : Char) (items : List (Item Term)) (ts : List Term) : Prop :=
  ∃ flat arguments, Flattens d items flat ∧ Argument.ofBody d flat = .ok arguments ∧ arguments.map Argument.term = ts

section Arguments

variable {d : Char} {items rest : List (Item Term)} {t : Term} {ts : List Term} {name cs : List Char}

/-- A part that is read to a token, with spaces around it. -/
theorem ReadsArgument.token (hd : Dialect.isUsable d = true) (m n : Nat) (h : Flattens d items [.token t]) :
    ReadsArgument d (spaces m ++ items ++ spaces n) t := by
  have hspace := Dialect.ne_space_of_isUsable hd
  refine ⟨spaces m ++ [.token t] ++ spaces n, .token t, ?_, ?_, ?_, rfl⟩
  · exact (h.spaces_append m).append_of_not_paren fun _ => isParen_of_mem_spaces
  · exact is_of_mem_spaced hspace m n (List.forall_mem_singleton.mpr rfl)
  · rw [trimSpaces_of_trimmed m n (by simp [Item.Trimmed, Item.isSpace])]
    rfl

/-- Plain characters, with spaces around them. -/
theorem ReadsArgument.phrase (hd : Dialect.isUsable d = true) (m n : Nat) (h : IsPhrase d cs) :
    ReadsArgument d (spaces m ++ cs.map .char ++ spaces n) (.variable (.ofList cs)) := by
  have hspace := Dialect.ne_space_of_isUsable hd
  obtain ⟨hplain, htrimmed⟩ := isPhrase_iff.mp h
  have hstructural : ∀ c ∈ cs, (c ≠ '(' ∧ c ≠ ')') ∧ c ≠ d :=
    fun c hc => Argument.isStructural_eq_false_iff.mp (hplain c hc)
  have hchars : ∀ x ∈ spaces m ++ cs.map (Item.char : Char → Item Term) ++ spaces n,
      x.isParen = false ∧ x.is d = false := by
    intro x hx
    rcases List.mem_append.mp hx with hx | hx
    · rcases List.mem_append.mp hx with hx | hx
      · exact ⟨isParen_of_mem_spaces hx, is_of_mem_spaces hspace hx⟩
      · obtain ⟨c, hc, rfl⟩ := List.mem_map.mp hx
        obtain ⟨hparen, hne⟩ := hstructural c hc
        exact ⟨Item.isParen_char.mpr hparen, by simpa [Item.is] using hne⟩
    · exact ⟨isParen_of_mem_spaces hx, is_of_mem_spaces hspace hx⟩
  refine ⟨_, .word (.ofList cs), flattens_of_not_paren fun x hx => (hchars x hx).1,
    fun x hx => (hchars x hx).2, ?_, rfl⟩
  rw [trimSpaces_of_trimmed m n htrimmed]
  exact Argument.ofPiece_eq_ok_iff.mpr (Or.inr ⟨cs, rfl, hplain, rfl⟩)

theorem ReadsArguments.one (h : ReadsArgument d items t) : ReadsArguments d items [t] := by
  obtain ⟨flat, a, hflat, hd, ha, rfl⟩ := h
  refine ⟨flat, [a], hflat, ?_, rfl⟩
  rw [List.splitOnP_eq_singleton hd]
  exact Argument.ofPieces_cons_eq_ok_iff.mpr ⟨a, [], ha, rfl, rfl⟩

/-- One more argument in front. No name may run from the delimiter into the rest. -/
theorem ReadsArguments.cons (hd : Dialect.isUsable d = true) (k : Nat) (hsep : k ≠ 0 ∨ isNameChar d = false)
    (h : ReadsArgument d items t) (hrest : ReadsArguments d rest ts) :
    ReadsArguments d (items ++ .char d :: (spaces k ++ rest)) (t :: ts) := by
  obtain ⟨flat, a, hflat, hpiece, ha, rfl⟩ := h
  obtain ⟨flat', arguments, hflat', harguments, rfl⟩ := hrest
  have hspace := Dialect.ne_space_of_isUsable hd
  obtain ⟨-, hparen, -⟩ := Dialect.isUsable_iff.mp hd
  refine ⟨flat ++ .char d :: (spaces k ++ flat'), a :: arguments, ?_, ?_, rfl⟩
  · refine hflat.append_of_run fun inner outer _ => ?_
    have hname : nameBefore (spaces k ++ .char d :: (flat.reverse ++ inner)) = [] :=
      nameBefore_spaces k (hsep.imp_right fun hd => nameBefore_char hd _)
    rw [Groups.run_cons, Groups.step_of_not_paren (Item.isParen_char.mpr hparen), Option.bind_some, Groups.run_append,
      Groups.run_of_not_paren fun _ => isParen_of_mem_spaces, Option.bind_some, reverse_spaces, Groups.push,
      hflat' ⟨_, outer⟩ hname]
    simp [reverse_spaces]
  · rw [List.splitOnP_append_cons_of_forall_mem hpiece _ (by simp [Item.is]), List.map_cons,
      splitOnP_spaces_append hspace]
    exact Argument.ofPieces_cons_eq_ok_iff.mpr ⟨a, arguments, ha, harguments, rfl⟩

theorem ReadsBody.empty (d : Char) (n : Nat) : ReadsBody d (spaces n) [] := by
  refine ⟨spaces n, [], flattens_spaces d n, ?_, rfl⟩
  rw [Argument.ofBody, if_pos]
  exact List.all_eq_true.mpr fun _ => isSpace_of_mem_spaces

theorem ReadsBody.arguments (h : ReadsArguments d items ts) (hspace : ∃ x ∈ items, x.isSpace = false) :
    ReadsBody d items ts := by
  obtain ⟨flat, arguments, hflat, hargs, rfl⟩ := h
  refine ⟨flat, arguments, hflat, ?_, rfl⟩
  rw [Argument.ofBody, if_neg, hargs]
  intro hall
  obtain ⟨x, hx, hspace⟩ := hspace
  rw [hflat.eq_of_isSpace (List.all_eq_true.mp hall)] at hx
  rw [List.all_eq_true.mp hall x hx] at hspace
  cases hspace

/-- A call is read to one token. -/
theorem flattens_call (hname : IsName name) (h : ReadsBody d items ts) :
    Flattens d (name.map .char ++ .char '(' :: items ++ [.char ')']) [.token (.call (.ofList name) ts)] := by
  obtain ⟨flat, arguments, hflat, hargs, rfl⟩ := h
  intro g hg
  have hbody : ∀ outer, Groups.run d ⟨[], outer⟩ items = some ⟨flat.reverse, outer⟩ := by
    intro outer
    rw [hflat ⟨[], outer⟩ rfl, List.append_nil]
  rw [Groups.run_call hname hg hbody, hargs]
  rfl

end Arguments

/-! ## The top level -/

/-- The items are read to a piece without spaces that stands for the term. -/
def ReadsTop (d : Char) (items : List (Item Term)) (t : Term) : Prop :=
  ∃ flat a, Flattens d items flat ∧ (flat ≠ [] ∧ ∀ x ∈ flat, x.isSpace = false) ∧
    Argument.ofPiece d flat = .ok a ∧ a.term = t

/-- The items are read to pieces between spaces that stand for the terms. -/
def ReadsForest (d : Char) (items : List (Item Term)) (ts : List Term) : Prop :=
  ∃ flat arguments, Flattens d items flat ∧ Argument.ofTopLevel d flat = .ok arguments ∧
    arguments.map Argument.term = ts

section TopLevel

variable {d : Char} {items rest : List (Item Term)} {t : Term} {ts : List Term} {cs : List Char}

theorem ReadsTop.token (h : Flattens d items [.token t]) : ReadsTop d items t :=
  ⟨[.token t], .token t, h, by simp [Item.isSpace], rfl, rfl⟩

theorem ReadsTop.word (h : IsWord d cs) : ReadsTop d (cs.map .char) (.variable (.ofList cs)) := by
  obtain ⟨hplain, hne, hspace⟩ := h
  refine ⟨cs.map .char, .word (.ofList cs), flattens_of_not_paren fun x hx => ?_, ⟨by simpa using hne, fun x hx => ?_⟩,
    Argument.ofPiece_eq_ok_iff.mpr (Or.inr ⟨cs, rfl, hplain, rfl⟩), rfl⟩
  · obtain ⟨c, hc, rfl⟩ := List.mem_map.mp hx
    exact Item.isParen_char.mpr (Argument.isStructural_eq_false_iff.mp (hplain c hc)).1
  · obtain ⟨c, hc, rfl⟩ := List.mem_map.mp hx
    rw [Item.isSpace, beq_eq_false_iff_ne]
    rintro rfl
    exact hspace hc

theorem ofTopLevel_spaces (n : Nat) (items : List (Item Term)) :
    Argument.ofTopLevel d (spaces n ++ items) = Argument.ofTopLevel d items := by
  induction n with
  | zero => rfl
  | succ n ih =>
    have hspace : (Item.char ' ' : Item Term).isSpace = true := rfl
    rw [← ih, spaces_succ, List.cons_append, Argument.ofTopLevel, List.splitOnP_cons_eq_if_modifyHead, if_pos hspace,
      List.filter_cons_of_neg (by simp), Argument.ofTopLevel]

theorem ReadsForest.nil (d : Char) : ReadsForest d [] [] :=
  ⟨[], [], flattens_spaces d 0, rfl, rfl⟩

theorem ReadsForest.last (h : ReadsTop d items t) : ReadsForest d items [t] := by
  obtain ⟨flat, a, hflat, ⟨hne, hspace⟩, ha, rfl⟩ := h
  refine ⟨flat, [a], hflat, ?_, rfl⟩
  rw [Argument.ofTopLevel, List.splitOnP_eq_singleton hspace, List.filter_cons_of_pos (by simpa using hne)]
  exact Argument.ofPieces_cons_eq_ok_iff.mpr ⟨a, [], ha, rfl, rfl⟩

/-- One more expression in front. -/
theorem ReadsForest.cons (n : Nat) (h : ReadsTop d items t) (hrest : ReadsForest d rest ts) :
    ReadsForest d (items ++ spaces (n + 1) ++ rest) (t :: ts) := by
  obtain ⟨flat, a, hflat, ⟨hne, hspace⟩, ha, rfl⟩ := h
  obtain ⟨flat', arguments, hflat', harguments, rfl⟩ := hrest
  refine ⟨flat ++ spaces (n + 1) ++ flat', a :: arguments, ?_, ?_, rfl⟩
  · refine (hflat.append_of_not_paren fun _ => isParen_of_mem_spaces).append hflat' fun inner _ => ?_
    rw [List.reverse_append, reverse_spaces, List.append_assoc]
    exact nameBefore_spaces _ (Or.inl (Nat.succ_ne_zero n))
  · rw [List.append_assoc, spaces_succ, List.cons_append, Argument.ofTopLevel,
      List.splitOnP_append_cons_of_forall_mem hspace _ rfl, List.filter_cons_of_pos (by simpa using hne)]
    rw [← ofTopLevel_spaces n] at harguments
    exact Argument.ofPieces_cons_eq_ok_iff.mpr ⟨a, arguments, ha, harguments, rfl⟩

theorem ReadsForest.spaces_append (n : Nat) (h : ReadsForest d items ts) : ReadsForest d (spaces n ++ items) ts := by
  obtain ⟨flat, arguments, hflat, hargs, rfl⟩ := h
  exact ⟨_, arguments, hflat.spaces_append n, (ofTopLevel_spaces n flat).trans hargs, rfl⟩

theorem ReadsForest.readTerms (h : ReadsForest d items ts) : readTerms d items = some ts := by
  obtain ⟨flat, arguments, hflat, hargs, rfl⟩ := h
  have hrun := hflat {} rfl
  exact readTerms_eq_some_iff.mpr ⟨_, arguments, hrun, by simpa using hargs, rfl⟩

end TopLevel

/-! ## Derivations are read -/

namespace Grammar

variable {d : Char} {items : List (Item Term)} {t : Term} {ts : List Term}

mutual

theorem IsCall.flattens (hd : Dialect.isUsable d = true) (hname : isNameChar d = false) :
    ∀ {items : List (Item Term)} {t : Term}, IsCall d items t → Flattens d items [.token t]
  | _, _, .mk hcall hbody => flattens_call hcall (hbody.reads hd hname)

theorem IsBody.reads (hd : Dialect.isUsable d = true) (hname : isNameChar d = false) :
    ∀ {items : List (Item Term)} {ts : List Term}, IsBody d items ts → ReadsBody d items ts
  | _, _, .empty n => .empty d n
  | _, _, .arguments hargs hspace => .arguments (hargs.reads hd hname) hspace

theorem IsArguments.reads (hd : Dialect.isUsable d = true) (hname : isNameChar d = false) :
    ∀ {items : List (Item Term)} {ts : List Term}, IsArguments d items ts → ReadsArguments d items ts
  | _, _, .one harg => .one (harg.reads hd hname)
  | _, _, .cons harg hrest => .cons hd 0 (Or.inr hname) (harg.reads hd hname) (hrest.reads hd hname)

theorem IsArgument.reads (hd : Dialect.isUsable d = true) (hname : isNameChar d = false) :
    ∀ {items : List (Item Term)} {t : Term}, IsArgument d items t → ReadsArgument d items t
  | _, _, .known m n t => by
    have htoken : Flattens d [.token t] [.token t] := flattens_of_not_paren (by simp [Item.isParen_token])
    simpa using ReadsArgument.token hd m n htoken
  | _, _, .call m n hcall => .token hd m n (hcall.flattens hd hname)
  | _, _, .phrase m n hphrase => .phrase hd m n hphrase

end

theorem IsTop.reads (hd : Dialect.isUsable d = true) (hname : isNameChar d = false) (h : IsTop d items t) :
    ReadsTop d items t := by
  cases h with
  | known t => exact .token (flattens_of_not_paren (by simp [Item.isParen_token]))
  | call hcall => exact .token (hcall.flattens hd hname)
  | word hword => exact .word hword

theorem IsSequence.reads (hd : Dialect.isUsable d = true) (hname : isNameChar d = false) (h : IsSequence d items ts) :
    ReadsForest d items ts := by
  induction h with
  | nil => exact .nil d
  | last htop => exact .last (htop.reads hd hname)
  | cons n htop _ ih => exact .cons n (htop.reads hd hname) ih

end Grammar

/-- **What is read is what derives**, with a delimiter that stands in no name. -/
theorem readTerms_eq_some_iff_isForest {d : Char} {items : List (Item Term)} {terms : List Term}
    (hd : Dialect.isUsable d = true) (hname : isNameChar d = false) :
    readTerms d items = some terms ↔ IsForest d items terms := by
  constructor
  · exact isForest_of_readTerms
  · rintro ⟨n, rest, rfl, hsequence⟩
    exact (hsequence.reads hd hname).spaces_append n |>.readTerms

end CallExpr
