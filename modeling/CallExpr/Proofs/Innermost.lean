import CallExpr.Proofs.Tokens
import CallExpr.Source.Chunk
import CallExpr.Source.Grammar
import Mathlib.Data.List.TakeWhile

/-!
# What a scan finds

The items to the left of a position are listed with the nearest first.

* `nameBefore`: the name that ends at a position, as long as it can be and without digits at its start.
* `Chunk.Exact left chunks`: with `left` before them, the calls among the chunks are innermost and carry their whole
  name, and no `)` outside of them closes an innermost call.
* A scan is exact (`Chunk.exact_scan`): the chunks that are finished stay exact whatever comes to the left of them
  (`Chunk.exact_scanPending`), since one more item flushes an exact list of chunks (`Chunk.Pending.exact_push`).
-/

namespace CallExpr

/-- Is it a parenthesis? -/
def Item.isParen {α : Type} (x : Item α) : Bool :=
  x.is '(' || x.is ')'

section Names

variable {α β : Type} {left : List (Item α)} {cs name : List Char}

/-- The name characters right before a position, the nearest first. -/
def nameRun : List (Item α) → List Char
  | .char c :: left => if isNameChar c then c :: nameRun left else []
  | _ => []

/-- The name that ends right before a position. -/
def nameBefore (left : List (Item α)) : List Char :=
  (nameRun left).reverse.dropWhile Char.isDigit

@[simp]
theorem Item.isParen_map (f : α → β) (x : Item α) : (x.map f).isParen = x.isParen := by
  simp [Item.isParen]

theorem Item.isParen_token (a : α) : (Item.token a).isParen = false := rfl

theorem Item.isParen_char {c : Char} : (Item.char c : Item α).isParen = false ↔ c ≠ '(' ∧ c ≠ ')' := by
  simp [Item.isParen, Item.is]

/-- Name characters are no parentheses. -/
theorem ne_paren_of_isNameChar {c : Char} (h : isNameChar c = true) : c ≠ '(' ∧ c ≠ ')' := by
  constructor <;> (rintro rfl; revert h; decide)

/-- Name characters are items without parentheses. -/
theorem isParen_of_isNameChar (hcs : ∀ c ∈ cs, isNameChar c = true) :
    ∀ x ∈ cs.map (Item.char : Char → Item α), x.isParen = false := by
  intro x hx
  obtain ⟨c, hc, rfl⟩ := List.mem_map.mp hx
  exact Item.isParen_char.mpr (ne_paren_of_isNameChar (hcs c hc))

theorem isNameChar_of_isDigit {c : Char} (h : c.isDigit = true) : isNameChar c = true := by
  simp [isNameChar, Char.isAlphanum, h]

theorem nameRun_map (f : α → β) (left : List (Item α)) : nameRun (left.map (Item.map f)) = nameRun left := by
  induction left with
  | nil => rfl
  | cons x left ih =>
    cases x with
    | token a => rfl
    | char c => simp only [List.map_cons, Item.map, nameRun, ih]

@[simp]
theorem nameBefore_map (f : α → β) (left : List (Item α)) : nameBefore (left.map (Item.map f)) = nameBefore left := by
  rw [nameBefore, nameRun_map, nameBefore]

theorem nameBefore_char {c : Char} (h : isNameChar c = false) (left : List (Item α)) :
    nameBefore (.char c :: left) = [] := by
  simp [nameBefore, nameRun, h]

theorem nameBefore_eq_nil_iff : nameBefore left = [] ↔ ∀ c ∈ nameRun left, c.isDigit = true := by
  simp [nameBefore, List.dropWhile_eq_nil_iff]

theorem nameRun_append (hcs : ∀ c ∈ cs, isNameChar c = true) (left : List (Item α)) :
    nameRun (cs.map .char ++ left) = cs ++ nameRun left := by
  induction cs with
  | nil => rfl
  | cons c cs ih =>
    obtain ⟨hc, hcs⟩ := List.forall_mem_cons.mp hcs
    simp only [List.map_cons, List.cons_append, nameRun, hc, if_true, ih hcs]

theorem isNameChar_of_mem_nameRun {c : Char} (hc : c ∈ nameRun left) : isNameChar c = true := by
  induction left with
  | nil => cases hc
  | cons x left ih =>
    cases x with
    | token a => cases hc
    | char c' =>
      rw [nameRun] at hc
      split at hc
      · rcases List.mem_cons.mp hc with rfl | hc
        · assumption
        · exact ih hc
      · cases hc

theorem Grammar.IsName.isNameChar (h : Grammar.IsName name) : ∀ c ∈ name, isNameChar c = true := by
  obtain ⟨c, rest, rfl, hc, -, hrest⟩ := h
  exact List.forall_mem_cons.mpr ⟨hc, hrest⟩

theorem Grammar.IsName.ne_nil (h : Grammar.IsName name) : name ≠ [] := by
  obtain ⟨c, rest, rfl, -⟩ := h
  exact List.cons_ne_nil c rest

/-- A name does not start with a digit. -/
theorem Grammar.IsName.dropWhile_isDigit (h : Grammar.IsName name) : name.dropWhile Char.isDigit = name := by
  obtain ⟨c, rest, rfl, -, hc, -⟩ := h
  exact List.dropWhile_cons_of_neg (by simp [hc])

/-- Name characters are a name if the digits at their start are dropped and something is left. -/
theorem isName_dropWhile (hcs : ∀ c ∈ cs, isNameChar c = true) (h : cs.dropWhile Char.isDigit ≠ []) :
    Grammar.IsName (cs.dropWhile Char.isDigit) := by
  obtain ⟨c, rest, hc⟩ := List.exists_cons_of_ne_nil h
  have hmem : ∀ x ∈ c :: rest, isNameChar x = true := by
    intro x hx
    rw [← hc] at hx
    exact hcs x ((List.dropWhile_sublist _).subset hx)
  have hdigit : c.isDigit = false := by
    have := List.head?_dropWhile_not Char.isDigit cs
    simpa [hc] using this
  rw [hc]
  obtain ⟨hname, hrest⟩ := List.forall_mem_cons.mp hmem
  exact ⟨c, rest, rfl, hname, hdigit, hrest⟩

/-- A name after which nothing belongs to it, in front of a position. -/
theorem nameBefore_name (hname : Grammar.IsName name) (hleft : nameBefore left = []) :
    nameBefore (name.reverse.map .char ++ left) = name := by
  have hchars : ∀ c ∈ name.reverse, isNameChar c = true := fun c hc => hname.isNameChar c (List.mem_reverse.mp hc)
  have hrun := nameRun_append hchars left
  have hdigits : ∀ x ∈ (nameRun left).reverse, x.isDigit = true :=
    fun x hx => nameBefore_eq_nil_iff.mp hleft x (List.mem_reverse.mp hx)
  rw [nameBefore, hrun, List.reverse_append, List.reverse_reverse, List.dropWhile_append_of_pos hdigits,
    hname.dropWhile_isDigit]

/-- Digits in front of a position do not make a name. -/
theorem nameBefore_digits (hcs : ∀ c ∈ cs, c.isDigit = true) (hleft : nameBefore left = []) :
    nameBefore (cs.map .char ++ left) = [] := by
  rw [nameBefore_eq_nil_iff, nameRun_append fun c hc => isNameChar_of_isDigit (hcs c hc)]
  intro c hc
  rcases List.mem_append.mp hc with hc | hc
  · exact hcs c hc
  · exact nameBefore_eq_nil_iff.mp hleft c hc

/-- The name characters before a position stand there, and none stands before them. -/
theorem exists_nameRun (left : List (Item α)) :
    ∃ rest, left = (nameRun left).map .char ++ rest ∧ nameRun rest = [] := by
  induction left with
  | nil => exact ⟨[], rfl, rfl⟩
  | cons x left ih =>
    cases x with
    | token a => exact ⟨_, rfl, rfl⟩
    | char c =>
      obtain ⟨rest, hrest, hnil⟩ := ih
      by_cases hc : isNameChar c = true
      · exact ⟨rest, by simp [nameRun, hc, ← hrest], hnil⟩
      · exact ⟨_, by simp [nameRun, hc]; rfl, by simp [nameRun, hc]⟩

/-- The name before a position stands there, and no name stands before it. -/
theorem exists_nameBefore (left : List (Item α)) :
    ∃ rest, left = (nameBefore left).reverse.map .char ++ rest ∧ nameBefore rest = [] := by
  obtain ⟨rest, hrest, hnil⟩ := exists_nameRun left
  have hsplit : nameRun left =
      (nameBefore left).reverse ++ ((nameRun left).reverse.takeWhile Char.isDigit).reverse := by
    rw [nameBefore, ← List.reverse_append, List.takeWhile_append_dropWhile, List.reverse_reverse]
  refine ⟨((nameRun left).reverse.takeWhile Char.isDigit).reverse.map .char ++ rest, ?_, ?_⟩
  · rw [← List.append_assoc, ← List.map_append, ← hsplit]
    exact hrest
  · refine nameBefore_digits (fun c hc => ?_) (by simp [nameBefore, hnil])
    exact List.all_eq_true.mp List.all_takeWhile c (List.mem_reverse.mp hc)

theorem isName_nameBefore (h : nameBefore left ≠ []) : Grammar.IsName (nameBefore left) :=
  isName_dropWhile (fun _ hc => isNameChar_of_mem_nameRun (List.mem_reverse.mp hc)) h

end Names

namespace Chunk

variable {α : Type} {left : List (Item α)}

/-! ## Exact chunks -/

/-- The calls among the chunks are innermost calls with their whole names, and no other `)` closes such a call. -/
def Exact : (left : List (Item α)) → List (Chunk α) → Prop
  | _, [] => True
  | left, .item x :: chunks =>
    (∀ body before, x = .char ')' → left = body ++ .char '(' :: before → (∀ y ∈ body, y.isParen = false) →
      nameBefore before = []) ∧ Exact (x :: left) chunks
  | left, .call name body :: chunks =>
    Grammar.IsName name ∧ (∀ y ∈ body, y.isParen = false) ∧ nameBefore left = [] ∧
      Exact ((call name body).spelling.reverse ++ left) chunks

theorem exact_append {chunks more : List (Chunk α)} (h : Exact left chunks)
    (hmore : Exact ((chunks.flatMap spelling).reverse ++ left) more) : Exact left (chunks ++ more) := by
  induction chunks generalizing left with
  | nil => exact hmore
  | cons chunk chunks ih =>
    cases chunk with
    | item x => exact ⟨h.1, ih h.2 (by simpa [spelling] using hmore)⟩
    | call name body =>
      obtain ⟨hname, hbody, hleft, h⟩ := h
      exact ⟨hname, hbody, hleft, ih h (by simpa using hmore)⟩

/-- Items without `)` are exact. -/
theorem exact_map_item {items : List (Item α)} (h : ∀ x ∈ items, x ≠ .char ')') : Exact left (items.map item) := by
  induction items generalizing left with
  | nil => trivial
  | cons x items ih =>
    obtain ⟨hx, h⟩ := List.forall_mem_cons.mp h
    exact ⟨fun _ _ hx' => absurd hx' hx, ih h⟩

/-- Items without parentheses come before the nearest parenthesis. -/
theorem split_before_paren {items left body before : List (Item α)} {x : Item α}
    (h : items ++ left = body ++ x :: before) (hitems : ∀ z ∈ items, z.isParen = false) (hx : x.isParen = true) :
    ∃ body', body = items ++ body' ∧ left = body' ++ x :: before := by
  induction items generalizing body with
  | nil => exact ⟨body, rfl, h⟩
  | cons z items ih =>
    cases body with
    | nil =>
      obtain ⟨rfl, -⟩ := List.cons.inj h
      rw [hitems z List.mem_cons_self] at hx
      cases hx
    | cons y body =>
      obtain ⟨rfl, hrest⟩ := List.cons.inj h
      obtain ⟨body', rfl, hleft⟩ := ih hrest fun w hw => hitems w (List.mem_cons_of_mem _ hw)
      exact ⟨body', rfl, hleft⟩

/-- The nearest parenthesis is in one place only. -/
theorem split_at_paren {body body' before before' : List (Item α)} {x y : Item α}
    (h : body ++ x :: before = body' ++ y :: before') (hbody : ∀ z ∈ body, z.isParen = false)
    (hbody' : ∀ z ∈ body', z.isParen = false) (hx : x.isParen = true) (hy : y.isParen = true) :
    x = y ∧ before = before' := by
  obtain ⟨rest, rfl, hrest⟩ := split_before_paren h hbody hy
  cases rest with
  | nil => exact List.cons.inj hrest
  | cons z rest =>
    obtain ⟨rfl, -⟩ := List.cons.inj hrest
    rw [hbody' x (by simp)] at hx
    cases hx

theorem ne_close_of_isParen {items : List (Item α)} (h : ∀ x ∈ items, x.isParen = false) :
    ∀ x ∈ items, x ≠ .char ')' := by
  rintro x hx rfl
  exact absurd (h _ hx) (by simp [Item.isParen, Item.is])

/-! ## What is pending -/

/-- No parentheses inside of what is pending, and only name characters in its name. -/
def Pending.Good : Pending α → Prop
  | .nothing => True
  | .body items => ∀ x ∈ items, x.isParen = false
  | .named name items => (∀ c ∈ name, isNameChar c = true) ∧ ∀ x ∈ items, x.isParen = false

/-- Nothing more to the left belongs to what is pending. -/
def Pending.Stops (left : List (Item α)) : Pending α → Prop
  | .nothing => True
  | .body _ => ∀ body before, left = body ++ .char '(' :: before → ∃ y ∈ body, y.isParen = true
  | .named _ _ => nameRun left = []

theorem Pending.good_push (x : Item α) {p : Pending α} (h : p.Good) : (p.push x).1.Good := by
  cases p with
  | nothing =>
    rw [Pending.push]
    split
    · simp [Good]
    · trivial
  | body items =>
    rw [Pending.push]
    split
    · exact ⟨by simp, h⟩
    · split
      · simp [Good]
      · next h₁ h₂ =>
        exact List.forall_mem_cons.mpr ⟨by simp [Item.isParen, h₁, h₂], h⟩
  | named name items =>
    cases x with
    | token a => trivial
    | char c =>
      rw [Pending.push]
      split
      · next hc => exact ⟨List.forall_mem_cons.mpr ⟨hc, h.1⟩, h.2⟩
      · split
        · simp [Good]
        · trivial

/-- Items without a `)` are exact with a `)` after them, if that closes no innermost call. -/
theorem exact_closed {items : List (Item α)} (hitems : ∀ x ∈ items, x ≠ .char ')')
    (hlast : Exact (items.reverse ++ left) [item (.char ')')]) :
    Exact left ((items ++ [Item.char ')']).map item) := by
  rw [List.map_append]
  refine exact_append (exact_map_item hitems) ?_
  rwa [flatMap_spelling_map_item]

theorem ne_close_of_isNameChar {name : List Char} (hname : ∀ c ∈ name, isNameChar c = true) :
    ∀ x ∈ name.map (Item.char : Char → Item α), x ≠ .char ')' :=
  ne_close_of_isParen (isParen_of_isNameChar hname)

/-- A `)` after items that follow no `(` closes no innermost call. -/
theorem Pending.exact_body {items : List (Item α)} (hitems : ∀ x ∈ items, x.isParen = false)
    (hstop : (Pending.body items).Stops left) : Exact left ((items ++ [Item.char ')']).map item) := by
  refine exact_closed (ne_close_of_isParen hitems) ⟨fun body before _ heq hbody => ?_, trivial⟩
  -- The nearest parenthesis to the left of the items is no `(`.
  obtain ⟨body', rfl, hleft⟩ := split_before_paren heq (fun z hz => hitems z (List.mem_reverse.mp hz))
    (by simp [Item.isParen, Item.is])
  obtain ⟨y, hy, hparen⟩ := hstop _ _ hleft
  rw [hbody y (List.mem_append_right _ hy)] at hparen
  cases hparen

/-- A group after digits is no call. -/
theorem Pending.exact_digits {name : List Char} {items : List (Item α)} (hname : ∀ c ∈ name, isNameChar c = true)
    (hitems : ∀ x ∈ items, x.isParen = false) (hdigits : ∀ c ∈ name, c.isDigit = true)
    (hleft : nameBefore left = []) : Exact left ((name.map Item.char ++ group items).map item) := by
  have hcs : ∀ x ∈ name.map Item.char ++ Item.char '(' :: items, x ≠ .char ')' := by
    intro x hx
    rcases List.mem_append.mp hx with hx | hx
    · exact ne_close_of_isNameChar hname x hx
    · rcases List.mem_cons.mp hx with rfl | hx
      · simp
      · exact ne_close_of_isParen hitems x hx
  have hclosed : Exact left ((name.map Item.char ++ Item.char '(' :: items ++ [Item.char ')']).map item) := by
    refine exact_closed hcs ⟨fun body before _ heq hbody => ?_, trivial⟩
    have heq : items.reverse ++ .char '(' :: ((name.map Item.char).reverse ++ left) =
        body ++ .char '(' :: before := by simpa using heq
    obtain ⟨-, rfl⟩ := split_at_paren heq (fun z hz => hitems z (List.mem_reverse.mp hz)) hbody
      (by simp [Item.isParen, Item.is]) (by simp [Item.isParen, Item.is])
    rw [← List.map_reverse]
    exact nameBefore_digits (fun c hc => hdigits c (List.mem_reverse.mp hc)) hleft
  simpa [group] using hclosed

/-- The name of a call starts after the digits. -/
theorem Pending.exact_call {name : List Char} {items : List (Item α)} (hname : ∀ c ∈ name, isNameChar c = true)
    (hitems : ∀ x ∈ items, x.isParen = false) (hdigits : ¬ ∀ c ∈ name, c.isDigit = true)
    (hleft : nameBefore left = []) :
    Exact left (((name.takeWhile Char.isDigit).map Item.char).map item ++
      [call (name.dropWhile Char.isDigit) items]) := by
  have hne : name.dropWhile Char.isDigit ≠ [] := by
    rw [Ne, List.dropWhile_eq_nil_iff]
    exact hdigits
  have htake : ∀ c ∈ name.takeWhile Char.isDigit, c.isDigit = true := List.all_eq_true.mp List.all_takeWhile
  refine exact_append (exact_map_item ?_) ⟨isName_dropWhile hname hne, hitems, ?_, trivial⟩
  · exact ne_close_of_isNameChar fun c hc => isNameChar_of_isDigit (htake c hc)
  · rw [flatMap_spelling_map_item, ← List.map_reverse]
    exact nameBefore_digits (fun c hc => htake c (List.mem_reverse.mp hc)) hleft

/-- What is pending gives an exact list of chunks where it stops. -/
theorem Pending.exact_chunks {p : Pending α} (h : p.Good) (hstop : p.Stops left) : Exact left p.chunks := by
  cases p with
  | nothing => trivial
  | body items => exact Pending.exact_body h hstop
  | named name items =>
    obtain ⟨hname, hitems⟩ := h
    have hleft : nameBefore left = [] := by
      rw [nameBefore_eq_nil_iff, show nameRun left = [] from hstop]
      simp
    rw [Pending.chunks]
    split
    · next hdigits =>
      exact Pending.exact_digits hname hitems (List.all_eq_true.mp hdigits) hleft
    · next hdigits =>
      exact Pending.exact_call hname hitems (fun hall => hdigits (List.all_eq_true.mpr hall)) hleft

/-- The chunks that one more item finishes are exact. -/
theorem Pending.exact_push (x : Item α) {p : Pending α} (h : p.Good) (left : List (Item α)) :
    Exact ((p.push x).1.spelling.reverse ++ left) (p.push x).2 := by
  have hclose : ∀ body before, (.char ')' :: left : List (Item α)) = body ++ .char '(' :: before →
      ∃ y ∈ body, y.isParen = true := by
    intro body before heq
    cases body with
    | nil => cases heq
    | cons y body =>
      obtain ⟨rfl, -⟩ := List.cons.inj heq
      exact ⟨_, List.mem_cons_self, by simp [Item.isParen, Item.is]⟩
  cases p with
  | nothing =>
    rw [Pending.push]
    split
    · trivial
    · next hx =>
      exact ⟨fun _ _ hx' => absurd (Item.is_eq_true_iff.mpr hx') hx, trivial⟩
  | body items =>
    rw [Pending.push]
    split
    · trivial
    · split
      · exact Pending.exact_chunks h hclose
      · trivial
  | named name items =>
    cases x with
    | token a =>
      have hrun : nameRun (.token a :: left) = [] := rfl
      exact ⟨fun _ _ hx => absurd hx (by simp), Pending.exact_chunks (p := named name items) h hrun⟩
    | char c =>
      rw [Pending.push]
      split
      · trivial
      · next hname =>
        have hrun : ∀ cs : List (Item α), nameRun (.char c :: cs) = [] := by
          intro cs
          simp [nameRun, hname]
        split
        · next hc =>
          obtain rfl : c = ')' := beq_iff_eq.mp hc
          exact Pending.exact_chunks (p := named name items) h (hrun left)
        · next hc =>
          exact ⟨fun _ _ hx => absurd hx (by simpa using hc),
            Pending.exact_chunks (p := named name items) h (hrun left)⟩

/-- Finished chunks are exact, whatever comes to the left. -/
theorem exact_scanPending (items : List (Item α)) : (scanPending items).1.Good ∧
    ∀ left, Exact ((scanPending items).1.spelling.reverse ++ left) (scanPending items).2 := by
  induction items with
  | nil => exact ⟨trivial, fun _ => trivial⟩
  | cons x items ih =>
    obtain ⟨hgood, hexact⟩ := ih
    rw [show scanPending (x :: items) = (((scanPending items).1.push x).1,
      ((scanPending items).1.push x).2 ++ (scanPending items).2) from rfl]
    refine ⟨Pending.good_push x hgood, fun left => exact_append (Pending.exact_push x hgood left) ?_⟩
    have := hexact (x :: left)
    rw [← List.append_assoc, ← List.reverse_append, Pending.spelling_push]
    simpa using this

/-- **A scan cuts out exactly the innermost calls.** -/
theorem exact_scan (items : List (Item α)) : Exact [] (scan items) := by
  obtain ⟨hgood, hexact⟩ := exact_scanPending items
  have hstop : (scanPending items).1.Stops [] := by
    cases (scanPending items).1 with
    | nothing => trivial
    | body items => exact fun body before h => by simp at h
    | named name items => exact (rfl : nameRun [] = [])
  refine exact_append (Pending.exact_chunks hgood hstop) ?_
  rw [Pending.flatMap_spelling_chunks]
  exact hexact []

end Chunk

end CallExpr
