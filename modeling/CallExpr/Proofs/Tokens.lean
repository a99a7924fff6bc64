import CallExpr.Source.Argument

/-!
# Tokens are opaque

Reading looks at the characters among the items and never into a token.

* Replacing the tokens commutes with splitting, trimming and reading (`Argument.ofBody_map`, `Argument.ofTopLevel_map`),
  so items of the same shape are read alike (`Argument.ofBody_eq_ok_of_shape`, `Argument.ofTopLevel_eq_ok_of_shape`).
* Reading keeps every token once and in order (`Argument.tokens_ofBody`, `Argument.tokens_ofTopLevel`).
-/

namespace CallExpr

/-! ## Splitting a list -/

section Split

variable {α β : Type}

/-- Splitting commutes with a map. -/
theorem splitOnP_map (f : α → β) (p : β → Bool) (xs : List α) :
    (xs.map f).splitOnP p = (xs.splitOnP (p ∘ f)).map (List.map f) := by
  induction xs with
  | nil => rfl
  | cons x xs ih =>
    obtain ⟨piece, pieces, h⟩ := List.exists_cons_of_ne_nil (List.splitOnP_ne_nil (p ∘ f) xs)
    simp only [List.map_cons, List.splitOnP_cons_eq_if_modifyHead, ih, h, Function.comp_apply]
    split <;> rfl

/-- The pieces and the separators between them make up the list. -/
theorem splitOnP_induction {p : α → Bool} {motive : List α → List (List α) → Prop}
    (one : ∀ piece, (∀ x ∈ piece, p x = false) → motive piece [piece])
    (cons : ∀ piece x rest, (∀ y ∈ piece, p y = false) → p x = true → motive rest (rest.splitOnP p) →
      motive (piece ++ x :: rest) (piece :: rest.splitOnP p)) (xs : List α) : motive xs (xs.splitOnP p) := by
  -- The first piece ends at the first separator, and the rest is shorter.
  suffices h : ∀ n (xs : List α), xs.length ≤ n → motive xs (xs.splitOnP p) from h _ xs Nat.le.refl
  intro n
  induction n with
  | zero =>
    intro xs hxs
    obtain rfl : xs = [] := List.eq_nil_of_length_eq_zero (Nat.le_zero.mp hxs)
    exact one [] (by simp)
  | succ n ih =>
    intro xs hxs
    cases hfind : xs.find? p with
    | none =>
      have hall : ∀ x ∈ xs, p x = false := by simpa using List.find?_eq_none.mp hfind
      rw [List.splitOnP_eq_singleton hall]
      exact one xs hall
    | some x =>
      obtain ⟨hx, piece, rest, rfl, hpiece⟩ := List.find?_eq_some_iff_append.mp hfind
      have hpiece : ∀ y ∈ piece, p y = false := by simpa using hpiece
      rw [List.splitOnP_append_cons_of_forall_mem hpiece x hx rest]
      refine cons piece x rest hpiece hx (ih rest ?_)
      simp only [List.length_append, List.length_cons] at hxs
      omega

/-- No separator is in a piece. -/
theorem eq_false_of_mem_splitOnP {p : α → Bool} {xs piece : List α} (h : piece ∈ xs.splitOnP p) :
    ∀ x ∈ piece, p x = false := by
  induction xs using splitOnP_induction (p := p) with
  | one other hother =>
    rw [List.mem_singleton.mp h]
    exact hother
  | cons other y rest hother _ ih =>
    rcases List.mem_cons.mp h with rfl | h
    · exact hother
    · exact ih h

/-- Every element that is no separator is in a piece. -/
theorem exists_mem_splitOnP {p : α → Bool} {xs : List α} {x : α} (hx : x ∈ xs) (hp : p x = false) :
    ∃ piece ∈ xs.splitOnP p, x ∈ piece := by
  induction xs using splitOnP_induction (p := p) with
  | one piece _ => exact ⟨piece, List.mem_singleton_self piece, hx⟩
  | cons piece y rest hpiece hy ih =>
    rcases List.mem_append.mp hx with hx | hx
    · exact ⟨piece, List.mem_cons_self, hx⟩
    · rcases List.mem_cons.mp hx with rfl | hx
      · rw [hp] at hy
        cases hy
      · obtain ⟨other, hother, hx⟩ := ih hx
        exact ⟨other, List.mem_cons_of_mem _ hother, hx⟩

end Split

/-! ## Replacing the tokens -/

namespace Item

variable {α β : Type}

@[simp]
theorem is_map (f : α → β) (c : Char) (x : Item α) : (x.map f).is c = x.is c := by
  cases x <;> rfl

@[simp]
theorem isSpace_map (f : α → β) (x : Item α) : (x.map f).isSpace = x.isSpace := by
  cases x <;> rfl

theorem is_eq_true_iff {c : Char} {x : Item α} : x.is c = true ↔ x = .char c := by
  cases x <;> simp [is]

theorem isSpace_eq_true_iff {x : Item α} : x.isSpace = true ↔ x = .char ' ' := by
  cases x <;> simp [isSpace]

/-- The token of an item. -/
def token? : Item α → Option α
  | char _ => none
  | token a => some a

/-- The items with all tokens made equal. -/
def shape (items : List (Item α)) : List (Item Unit) :=
  items.map (map fun _ => ())

/-- The tokens among the items, in order. -/
def tokens (items : List (Item α)) : List α :=
  items.filterMap token?

@[simp]
theorem tokens_nil : tokens ([] : List (Item α)) = [] := rfl

@[simp]
theorem tokens_append (xs ys : List (Item α)) : tokens (xs ++ ys) = tokens xs ++ tokens ys :=
  List.filterMap_append

@[simp]
theorem tokens_cons_char (c : Char) (xs : List (Item α)) : tokens (.char c :: xs) = tokens xs := rfl

@[simp]
theorem tokens_cons_token (a : α) (xs : List (Item α)) : tokens (.token a :: xs) = a :: tokens xs := rfl

@[simp]
theorem tokens_map_char (cs : List Char) : tokens (cs.map (char : Char → Item α)) = [] := by
  simp [tokens, token?, List.filterMap_eq_nil_iff]

@[simp]
theorem tokens_reverse (xs : List (Item α)) : tokens xs.reverse = (tokens xs).reverse :=
  List.filterMap_reverse

theorem tokens_eq_nil_of_isSpace {xs : List (Item α)} (h : ∀ x ∈ xs, x.isSpace = true) : tokens xs = [] := by
  rw [tokens, List.filterMap_eq_nil_iff]
  intro x hx
  rw [isSpace_eq_true_iff.mp (h x hx)]
  rfl

end Item

section Trim

variable {α β : Type}

theorem trimSpaces_map (f : α → β) (xs : List (Item α)) :
    trimSpaces (xs.map (Item.map f)) = (trimSpaces xs).map (Item.map f) := by
  have h : Item.isSpace ∘ Item.map f = Item.isSpace := funext fun x => Item.isSpace_map f x
  simp only [trimSpaces, List.dropWhile_map, ← List.map_reverse, h]

/-- Trimming takes spaces from both ends and nothing else. -/
theorem exists_trimSpaces (xs : List (Item α)) :
    ∃ before after, xs = before ++ trimSpaces xs ++ after ∧ (∀ x ∈ before, x.isSpace = true) ∧
      ∀ x ∈ after, x.isSpace = true := by
  refine ⟨xs.takeWhile Item.isSpace, ((xs.dropWhile Item.isSpace).reverse.takeWhile Item.isSpace).reverse, ?_, ?_, ?_⟩
  · rw [List.append_assoc, trimSpaces, ← List.reverse_append, List.takeWhile_append_dropWhile, List.reverse_reverse,
      List.takeWhile_append_dropWhile]
  · exact fun x hx => List.all_eq_true.mp List.all_takeWhile x hx
  · exact fun x hx => List.all_eq_true.mp List.all_takeWhile x (List.mem_reverse.mp hx)

theorem tokens_trimSpaces (xs : List (Item α)) : Item.tokens (trimSpaces xs) = Item.tokens xs := by
  obtain ⟨before, after, h, hb, ha⟩ := exists_trimSpaces xs
  have := congrArg Item.tokens h
  rw [Item.tokens_append, Item.tokens_append, Item.tokens_eq_nil_of_isSpace hb,
    Item.tokens_eq_nil_of_isSpace ha] at this
  simpa using this.symm

end Trim

/-! ## Reading -/

namespace Argument

variable {α β : Type} {d : Char}

/-- Replaces the token of an argument. -/
def map (f : α → β) : Argument α → Argument β
  | token a => token (f a)
  | word s => word s

/-- The token of an argument. -/
def token? : Argument α → Option α
  | token a => some a
  | word _ => none

/-- The tokens among the arguments, in order. -/
def tokens (arguments : List (Argument α)) : List α :=
  arguments.filterMap token?

/-- The arguments with all tokens made equal. -/
def shape (arguments : List (Argument α)) : List (Argument Unit) :=
  arguments.map (map fun _ => ())

/-- A result of reading with other tokens. -/
def mapResult (f : α → β) (r : Except (List (Item α)) (List (Argument α))) :
    Except (List (Item β)) (List (Argument β)) :=
  (r.map (List.map (map f))).mapError (List.map (Item.map f))

theorem wordChar?_map (f : α → β) (x : Item α) : wordChar? d (x.map f) = wordChar? d x := by
  cases x <;> rfl

theorem mapM_wordChar?_map (f : α → β) (piece : List (Item α)) :
    (piece.map (Item.map f)).mapM (wordChar? d) = piece.mapM (wordChar? d) := by
  induction piece with
  | nil => rfl
  | cons x piece ih => simp only [List.map_cons, List.mapM_cons, wordChar?_map, ih]

/-- A piece that is not one token is a word if its items are word characters. -/
theorem ofPiece_eq_of_ne {piece : List (Item α)} (h : ∀ a, piece ≠ [.token a]) :
    ofPiece d piece = match piece.mapM (wordChar? d) with
      | some cs => .ok (word (.ofList cs))
      | none => .error piece := by
  unfold ofPiece
  split
  · next a => exact absurd rfl (h a)
  · rfl

theorem ofPiece_map (f : α → β) (piece : List (Item α)) :
    ofPiece d (piece.map (Item.map f)) = ((ofPiece d piece).map (map f)).mapError (List.map (Item.map f)) := by
  by_cases h : ∃ a, piece = [.token a]
  · obtain ⟨a, rfl⟩ := h
    rfl
  · have h' : ∀ b, piece.map (Item.map f) ≠ [.token b] := by
      intro b hb
      obtain ⟨x, rfl, hx⟩ := List.map_eq_singleton_iff.mp hb
      cases x with
      | char c => cases hx
      | token a => exact h ⟨a, rfl⟩
    rw [ofPiece_eq_of_ne h', ofPiece_eq_of_ne fun a ha => h ⟨a, ha⟩, mapM_wordChar?_map]
    cases piece.mapM (wordChar? d) <;> rfl

theorem ofPieces_cons (piece : List (Item α)) (pieces : List (List (Item α))) :
    ofPieces d (piece :: pieces) = match ofPiece d piece with
      | .error e => .error e
      | .ok a => match ofPieces d pieces with
        | .error e => .error e
        | .ok arguments => .ok (a :: arguments) := by
  unfold ofPieces
  rw [List.mapM_cons]
  cases ofPiece d piece with
  | error e => rfl
  | ok a => cases List.mapM (ofPiece d) pieces <;> rfl

theorem ofPieces_map (f : α → β) (pieces : List (List (Item α))) :
    ofPieces d (pieces.map (List.map (Item.map f))) = mapResult f (ofPieces d pieces) := by
  induction pieces with
  | nil => rfl
  | cons piece pieces ih =>
    rw [List.map_cons, ofPieces_cons, ofPieces_cons, ofPiece_map, ih]
    cases ofPiece d piece with
    | error e => rfl
    | ok a => cases ofPieces d pieces <;> rfl

/-- Reading the arguments of a call commutes with replacing the tokens. -/
theorem ofBody_map (f : α → β) (body : List (Item α)) :
    ofBody d (body.map (Item.map f)) = mapResult f (ofBody d body) := by
  have hspace : Item.isSpace ∘ Item.map f = Item.isSpace := funext fun x => Item.isSpace_map f x
  have hsep : Item.is d ∘ Item.map f = Item.is d := funext fun x => Item.is_map f d x
  unfold ofBody
  rw [List.all_map, hspace]
  split
  · rfl
  · rw [splitOnP_map, hsep, List.map_map, ← ofPieces_map, List.map_map]
    congr 2
    exact funext fun piece => trimSpaces_map f piece

/-- Reading the top level commutes with replacing the tokens. -/
theorem ofTopLevel_map (f : α → β) (items : List (Item α)) :
    ofTopLevel d (items.map (Item.map f)) = mapResult f (ofTopLevel d items) := by
  have hspace : Item.isSpace ∘ Item.map f = Item.isSpace := funext fun x => Item.isSpace_map f x
  unfold ofTopLevel
  rw [splitOnP_map, hspace, List.filter_map, ← ofPieces_map]
  congr 3
  exact funext fun piece => by simp

theorem mapResult_eq_ok_iff {f : α → β} {r : Except (List (Item α)) (List (Argument α))}
    {arguments : List (Argument β)} :
    mapResult f r = .ok arguments ↔ ∃ original, r = .ok original ∧ original.map (map f) = arguments := by
  cases r with
  | error e =>
    constructor
    · intro h
      cases h
    · rintro ⟨_, ⟨⟩, -⟩
  | ok original =>
    constructor
    · intro h
      cases h
      exact ⟨original, rfl, rfl⟩
    · rintro ⟨_, ⟨⟩, rfl⟩
      rfl

/-- Items of one shape are read alike, if reading commutes with replacing the tokens. -/
theorem eq_ok_of_shape (read : {γ : Type} → List (Item γ) → Except (List (Item γ)) (List (Argument γ)))
    (hread : ∀ {γ δ : Type} (f : γ → δ) (items : List (Item γ)),
      read (items.map (Item.map f)) = mapResult f (read items))
    {xs : List (Item α)} {ys : List (Item β)} (hshape : Item.shape xs = Item.shape ys)
    {arguments : List (Argument α)} (h : read xs = .ok arguments) :
    ∃ others, read ys = .ok others ∧ shape arguments = shape others := by
  have hx : read (Item.shape xs) = .ok (shape arguments) := by
    rw [Item.shape, hread, h]
    rfl
  rw [hshape, Item.shape, hread, mapResult_eq_ok_iff] at hx
  obtain ⟨others, hy, hshape'⟩ := hx
  exact ⟨others, hy, hshape'.symm⟩

theorem ofBody_eq_ok_of_shape {xs : List (Item α)} {ys : List (Item β)} (hshape : Item.shape xs = Item.shape ys)
    {arguments : List (Argument α)} (h : ofBody d xs = .ok arguments) :
    ∃ others, ofBody d ys = .ok others ∧ shape arguments = shape others :=
  eq_ok_of_shape (ofBody d) ofBody_map hshape h

theorem ofTopLevel_eq_ok_of_shape {xs : List (Item α)} {ys : List (Item β)} (hshape : Item.shape xs = Item.shape ys)
    {arguments : List (Argument α)} (h : ofTopLevel d xs = .ok arguments) :
    ∃ others, ofTopLevel d ys = .ok others ∧ shape arguments = shape others :=
  eq_ok_of_shape (ofTopLevel d) ofTopLevel_map hshape h

/-! ## What a piece stands for -/

theorem isStructural_eq_false_iff {c : Char} : isStructural d c = false ↔ (c ≠ '(' ∧ c ≠ ')') ∧ c ≠ d := by
  simp [isStructural]

theorem wordChar?_eq_some_iff {x : Item α} {c : Char} :
    wordChar? d x = some c ↔ x = .char c ∧ isStructural d c = false := by
  cases x with
  | token a => simp [wordChar?]
  | char c' =>
    simp only [wordChar?, Option.ite_none_left_eq_some, Bool.not_eq_true, Option.some.injEq, Item.char.injEq]
    constructor
    · rintro ⟨h, rfl⟩
      exact ⟨rfl, h⟩
    · rintro ⟨rfl, h⟩
      exact ⟨h, rfl⟩

theorem mapM_wordChar?_eq_some_iff {piece : List (Item α)} {cs : List Char} :
    piece.mapM (wordChar? d) = some cs ↔ piece = cs.map .char ∧ ∀ c ∈ cs, isStructural d c = false := by
  induction piece generalizing cs with
  | nil => cases cs <;> simp
  | cons x piece ih =>
    simp only [List.mapM_cons, Option.bind_eq_bind, Option.bind_eq_some_iff, Option.pure_def, Option.some.injEq]
    constructor
    · rintro ⟨c, hc, cs, hcs, rfl⟩
      obtain ⟨rfl, hs⟩ := wordChar?_eq_some_iff.mp hc
      obtain ⟨rfl, hall⟩ := ih.mp hcs
      exact ⟨rfl, List.forall_mem_cons.mpr ⟨hs, hall⟩⟩
    · rintro ⟨hx, hall⟩
      cases cs with
      | nil => cases hx
      | cons c cs =>
        rw [List.map_cons, List.cons.injEq] at hx
        obtain ⟨hs, hall⟩ := List.forall_mem_cons.mp hall
        exact ⟨c, wordChar?_eq_some_iff.mpr ⟨hx.1, hs⟩, cs, ih.mpr ⟨hx.2, hall⟩, rfl⟩

theorem ofPiece_eq_ok_iff {piece : List (Item α)} {a : Argument α} :
    ofPiece d piece = .ok a ↔ (∃ t, piece = [.token t] ∧ a = token t) ∨
      ∃ cs : List Char, piece = cs.map .char ∧ (∀ c ∈ cs, isStructural d c = false) ∧ a = word (.ofList cs) := by
  by_cases h : ∃ t, piece = [.token t]
  · obtain ⟨t, rfl⟩ := h
    constructor
    · intro hok
      cases hok
      exact Or.inl ⟨t, rfl, rfl⟩
    · rintro (⟨t', ht, rfl⟩ | ⟨cs, hcs, -⟩)
      · cases ht
        rfl
      · cases cs <;> cases hcs
  · rw [ofPiece_eq_of_ne fun t ht => h ⟨t, ht⟩]
    constructor
    · intro hok
      cases hm : piece.mapM (wordChar? d) with
      | none => rw [hm] at hok; cases hok
      | some cs =>
        rw [hm] at hok
        cases hok
        obtain ⟨hp, hcs⟩ := mapM_wordChar?_eq_some_iff.mp hm
        exact Or.inr ⟨cs, hp, hcs, rfl⟩
    · rintro (⟨t, rfl, -⟩ | ⟨cs, hp, hcs, rfl⟩)
      · exact absurd ⟨t, rfl⟩ h
      · rw [mapM_wordChar?_eq_some_iff.mpr ⟨hp, hcs⟩]

theorem ofPieces_cons_eq_ok_iff {piece : List (Item α)} {pieces : List (List (Item α))}
    {arguments : List (Argument α)} :
    ofPieces d (piece :: pieces) = .ok arguments ↔
      ∃ a rest, ofPiece d piece = .ok a ∧ ofPieces d pieces = .ok rest ∧ arguments = a :: rest := by
  rw [ofPieces_cons]
  cases ofPiece d piece with
  | error e => simp
  | ok a => cases ofPieces d pieces <;> simp [eq_comm]

theorem exists_ofPiece_of_mem {pieces : List (List (Item α))} {arguments : List (Argument α)}
    (h : ofPieces d pieces = .ok arguments) {piece : List (Item α)} (hpiece : piece ∈ pieces) :
    ∃ a ∈ arguments, ofPiece d piece = .ok a := by
  induction pieces generalizing arguments with
  | nil => cases hpiece
  | cons first pieces ih =>
    obtain ⟨a, rest, ha, hrest, rfl⟩ := ofPieces_cons_eq_ok_iff.mp h
    rcases List.mem_cons.mp hpiece with rfl | hpiece
    · exact ⟨a, List.mem_cons_self, ha⟩
    · obtain ⟨b, hb, hok⟩ := ih hrest hpiece
      exact ⟨b, List.mem_cons_of_mem a hb, hok⟩

/-! ## Every token is kept -/

theorem tokens_ofPiece {piece : List (Item α)} {a : Argument α} (h : ofPiece d piece = .ok a) :
    tokens [a] = Item.tokens piece := by
  rcases ofPiece_eq_ok_iff.mp h with ⟨t, rfl, rfl⟩ | ⟨cs, rfl, -, rfl⟩
  · rfl
  · rw [Item.tokens_map_char]
    rfl

theorem tokens_ofPieces {pieces : List (List (Item α))} {arguments : List (Argument α)}
    (h : ofPieces d pieces = .ok arguments) : tokens arguments = pieces.flatMap Item.tokens := by
  induction pieces generalizing arguments with
  | nil => cases h; rfl
  | cons piece pieces ih =>
    obtain ⟨a, rest, ha, hrest, rfl⟩ := ofPieces_cons_eq_ok_iff.mp h
    rw [List.flatMap_cons, ← ih hrest, ← tokens_ofPiece ha]
    exact List.filterMap_append (l := [a])

/-- No token is lost between the pieces, if only characters separate. -/
theorem flatMap_tokens_splitOnP {p : Item α → Bool} (hp : ∀ a, p (.token a) = false) (items : List (Item α)) :
    (items.splitOnP p).flatMap Item.tokens = Item.tokens items := by
  induction items using splitOnP_induction (p := p) with
  | one piece _ => simp
  | cons piece x rest _ hx ih =>
    cases x with
    | token a => simp [hp] at hx
    | char c => simp [ih]

theorem tokens_ofBody {body : List (Item α)} {arguments : List (Argument α)} (h : ofBody d body = .ok arguments) :
    tokens arguments = Item.tokens body := by
  unfold ofBody at h
  split at h
  · next hspace =>
    cases h
    rw [Item.tokens_eq_nil_of_isSpace (List.all_eq_true.mp hspace)]
    rfl
  · rw [tokens_ofPieces h, List.flatMap_map, ← flatMap_tokens_splitOnP (p := Item.is d) (fun _ => rfl)]
    simp only [tokens_trimSpaces]

theorem tokens_ofTopLevel {items : List (Item α)} {arguments : List (Argument α)}
    (h : ofTopLevel d items = .ok arguments) : tokens arguments = Item.tokens items := by
  rw [tokens_ofPieces h, ← flatMap_tokens_splitOnP (p := Item.isSpace) (fun _ => rfl)]
  induction items.splitOnP Item.isSpace with
  | nil => rfl
  | cons piece pieces ih =>
    rw [List.filter_cons]
    split
    · rw [List.flatMap_cons, ih, List.flatMap_cons]
    · next hp =>
      obtain rfl : piece = [] := by simpa using hp
      rw [ih]
      rfl

end Argument

end CallExpr
