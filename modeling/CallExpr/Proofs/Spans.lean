import CallExpr.Proofs.Innermost
import CallExpr.Proofs.Progress
import CallExpr.Source.Span

/-!
# Where a scan finds calls

* `Span.nameStart?_eq_some_iff`: the search for the start of a name finds the longest name.
* `Span.IsInnermost.closing_lt_start`: innermost calls lie apart.
* `Span.Search.Knows`: what a search knows before a position. One step keeps it (`Span.Search.knows_step`), so a walk
  over all items finds the innermost calls and nothing else (`Span.mem_search_iff`).
* `Span.search_eq_spans`: these are the calls of the scan, since a walk over an exact list of chunks stops at its calls
  (`Span.found_run_chunks`).
* `Span.cut_spans`: items that are cut at the spans of their calls are cut into their chunks.
* `Span.search_innermost`: what that means for the items of a pass.
-/

namespace CallExpr

namespace Span

variable {α : Type} {items left rest body before : List (Item α)} {name : List Char} {n i stop opening : Nat}
  {p q : Span} {s : Search} {x : Item α}

/-! ## The name before a position -/

theorem charAt?_reverse (x : Item α) (left rest : List (Item α)) :
    charAt? ((x :: left).reverse ++ rest) left.length = x.char? := by
  simp [charAt?]

/-- The walk to the left passes the name characters. -/
theorem skipLeft_add_length (left rest : List (Item α)) :
    skipLeft (left.reverse ++ rest) left.length + (nameRun left).length = left.length := by
  induction left generalizing rest with
  | nil => rfl
  | cons x left ih =>
    have ih := ih (x :: rest)
    rw [List.length_cons, skipLeft, charAt?_reverse]
    cases x with
    | token a => simp [Item.char?, nameRun]
    | char c =>
      by_cases hc : isNameChar c = true
      · simp [Item.char?, nameRun, hc] at ih ⊢
        omega
      · simp [Item.char?, nameRun, hc]

/-- The walk to the right passes the digits at the start of a name. -/
theorem skipDigits_eq (before : List (Item α)) (cs : List Char) (rest : List (Item α)) :
    skipDigits (before ++ (cs.map .char ++ rest)) cs.length before.length =
      before.length + (cs.takeWhile Char.isDigit).length := by
  induction cs generalizing before with
  | nil => rfl
  | cons c cs ih =>
    have hc : charAt? (before ++ ((c :: cs).map .char ++ rest)) before.length = some c := by simp [charAt?, Item.char?]
    have ih := ih (before ++ [.char c])
    rw [List.length_cons, skipDigits, hc]
    by_cases hd : c.isDigit = true
    · simp [hd] at ih ⊢
      omega
    · simp [hd]

/-- Both walks together find the name before a position. -/
theorem nameStart?_eq (left rest : List (Item α)) : nameStart? (left.reverse ++ rest) left.length =
    if nameBefore left = [] then none else some (left.length - (nameBefore left).length) := by
  obtain ⟨before, hleft, -⟩ := exists_nameRun left
  have hlength : (nameRun left).length + before.length = left.length := by
    have := congrArg List.length hleft
    simpa using this.symm
  have hfirst : skipLeft (left.reverse ++ rest) left.length = before.length := by
    have := skipLeft_add_length left rest
    omega
  have hitems : left.reverse ++ rest = before.reverse ++ ((nameRun left).reverse.map .char ++ rest) := by
    conv_lhs => rw [hleft]
    simp
  have hdigits := skipDigits_eq before.reverse (nameRun left).reverse rest
  rw [← hitems, List.length_reverse, List.length_reverse] at hdigits
  -- The digits that are passed and the name that is left make up all name characters.
  have hsplit : ((nameRun left).reverse.takeWhile Char.isDigit).length + (nameBefore left).length =
      (nameRun left).length := by
    rw [nameBefore, ← List.length_append, List.takeWhile_append_dropWhile, List.length_reverse]
  rw [nameStart?, hfirst, show left.length - before.length = (nameRun left).length by omega, hdigits]
  by_cases hname : nameBefore left = []
  · rw [hname, List.length_nil] at hsplit
    rw [if_pos hname, if_neg (by omega)]
  · have hpos := List.length_pos_of_ne_nil hname
    rw [if_neg hname, if_pos (by omega)]
    exact congrArg some (by omega)

/-- A name that ends at a position is the nearest part of what is to the left. -/
theorem isNameAt_iff : IsNameAt (left.reverse ++ rest) i left.length ↔
    ∃ name before, Grammar.IsName name ∧ left = name.reverse.map .char ++ before ∧ i = before.length := by
  have hextract : (left.reverse ++ rest).extract i left.length = left.reverse.drop i := by
    rw [List.extract_eq_take_drop, ← List.drop_take, List.take_left' (List.length_reverse)]
  rw [IsNameAt, hextract]
  constructor
  · rintro ⟨name, hname, hdrop⟩
    refine ⟨name, (left.reverse.take i).reverse, hname, ?_, ?_⟩
    · rw [List.map_reverse, ← hdrop, ← List.reverse_append, List.take_append_drop, List.reverse_reverse]
    · have hlength := congrArg List.length hdrop
      have hpos := List.length_pos_of_ne_nil hname.ne_nil
      simp at hlength ⊢
      omega
  · rintro ⟨name, before, hname, rfl, rfl⟩
    exact ⟨name, hname, by simp⟩

/-- No name before a position is longer than `nameBefore`. -/
theorem length_le_nameBefore (hname : Grammar.IsName name) (before : List (Item α)) :
    name.length ≤ (nameBefore (name.reverse.map .char ++ before)).length := by
  have hchars : ∀ c ∈ name.reverse, isNameChar c = true := fun c hc => hname.isNameChar c (List.mem_reverse.mp hc)
  rw [nameBefore, nameRun_append hchars, List.reverse_append, List.reverse_reverse, List.dropWhile_append,
    hname.dropWhile_isDigit]
  split
  · exact le_refl _
  · simp

/-- **The start that is found is that of the longest name**, and nothing is found if there is no name. -/
theorem nameStart?_eq_some_iff (hstop : stop ≤ items.length) :
    nameStart? items stop = some i ↔ IsLongestName items i stop := by
  obtain ⟨left, rest, rfl, rfl⟩ : ∃ left rest, items = left.reverse ++ rest ∧ stop = left.length :=
    ⟨(items.take stop).reverse, items.drop stop, by simp, by simp [hstop]⟩
  have hlongest : ∀ j, IsNameAt (left.reverse ++ rest) j left.length →
      nameBefore left ≠ [] ∧ left.length - (nameBefore left).length ≤ j := by
    intro j hj
    obtain ⟨name, before, hname, rfl, rfl⟩ := isNameAt_iff.mp hj
    have hle := length_le_nameBefore hname before
    have hpos := List.length_pos_of_ne_nil hname.ne_nil
    refine ⟨List.ne_nil_of_length_pos (by omega), ?_⟩
    simp only [List.length_append, List.length_map, List.length_reverse]
    omega
  have hfound : nameBefore left ≠ [] →
      IsNameAt (left.reverse ++ rest) (left.length - (nameBefore left).length) left.length := by
    intro hne
    obtain ⟨before, hleft, -⟩ := exists_nameBefore left
    refine isNameAt_iff.mpr ⟨_, before, isName_nameBefore hne, hleft, ?_⟩
    have := congrArg List.length hleft
    simp only [List.length_append, List.length_map, List.length_reverse] at this
    omega
  rw [nameStart?_eq]
  constructor
  · intro h
    split at h
    · cases h
    · next hne =>
      obtain rfl := Option.some.inj h
      exact ⟨hfound hne, fun j hj => (hlongest j hj).2⟩
  · rintro ⟨hi, hmin⟩
    obtain ⟨hne, hle⟩ := hlongest i hi
    rw [if_neg hne, Nat.le_antisymm hle (hmin _ (hfound hne))]

/-- The items of a name are name characters. -/
theorem IsNameAt.exists_char (h : IsNameAt items i stop) {j : Nat} (hi : i ≤ j) (hj : j < stop)
    (hstop : stop ≤ items.length) : ∃ c, items[j]? = some (.char c) ∧ isNameChar c = true := by
  obtain ⟨name, hname, hextract⟩ := h
  have hget : (name.map (Item.char : Char → Item α))[j - i]? = items[j]? := by
    rw [← hextract, List.extract_eq_take_drop, List.getElem?_take_of_lt (by omega), List.getElem?_drop,
      Nat.add_sub_cancel' hi]
  rw [List.getElem?_map, List.getElem?_eq_getElem (by omega : j < items.length)] at hget
  obtain ⟨c, hc, hchar⟩ := Option.map_eq_some_iff.mp hget
  refine ⟨c, ?_, hname.isNameChar c (List.mem_of_getElem? hc)⟩
  rw [hchar, List.getElem?_eq_getElem]

theorem IsNameAt.lt (h : IsNameAt items i stop) : i < stop := by
  obtain ⟨name, hname, hextract⟩ := h
  have hlength := congrArg List.length hextract
  have hpos := List.length_pos_of_ne_nil hname.ne_nil
  simp at hlength
  omega

/-! ## The open parenthesis -/

/-- A parenthesis decides anew which one is open, and other items do not. -/
theorem isOpen_succ_iff : IsOpen items (n + 1) opening ↔
    (opening = n ∧ items[n]? = some (.char '(')) ∨
      (IsOpen items n opening ∧ items[n]? ≠ some (.char '(') ∧ items[n]? ≠ some (.char ')')) := by
  constructor
  · rintro ⟨hlt, hopened, hbetween⟩
    rcases Nat.lt_succ_iff_lt_or_eq.mp hlt with hlt | rfl
    · exact Or.inr ⟨⟨hlt, hopened, fun i h h' => hbetween i h (by omega)⟩, hbetween n hlt (by omega)⟩
    · exact Or.inl ⟨rfl, hopened⟩
  · rintro (⟨rfl, hopened⟩ | ⟨⟨hlt, hopened, hbetween⟩, hn⟩)
    · exact ⟨by omega, hopened, by omega⟩
    · refine ⟨by omega, hopened, fun i h h' => ?_⟩
      rcases Nat.lt_succ_iff_lt_or_eq.mp h' with h' | rfl
      · exact hbetween i h h'
      · exact hn

theorem IsInnermost.closing_lt (h : p.IsInnermost items) : p.closing < items.length :=
  (List.getElem?_eq_some_iff.mp h.closed).1

theorem IsInnermost.opening_le (h : p.IsInnermost items) : p.opening ≤ items.length :=
  (h.isOpen.lt.trans h.closing_lt).le

theorem IsInnermost.start_lt (h : p.IsInnermost items) : p.start < p.opening :=
  h.name.1.lt

/-- **Innermost calls lie apart**: the one that ends first ends before the name of the other starts. -/
theorem IsInnermost.closing_lt_start (hp : p.IsInnermost items) (hq : q.IsInnermost items)
    (hlt : p.closing < q.closing) : p.closing < q.start := by
  rcases Nat.lt_trichotomy p.closing q.opening with h | h | h
  -- In front of the other's parenthesis there are only name characters down to the start.
  · refine Nat.lt_of_not_le fun hle => ?_
    obtain ⟨c, hc, hname⟩ := hq.name.1.exists_char hle h hq.opening_le
    rw [hp.closed] at hc
    cases hc
    exact (ne_paren_of_isNameChar hname).2 rfl
  · have hopened := hq.isOpen.opened
    rw [← h, hp.closed] at hopened
    cases hopened
  · exact absurd hp.closed (hq.isOpen.between _ h hlt).2

/-! ## The walk -/

namespace Search

/-- What a search knows before a position: the parenthesis that is open there, and the innermost calls that end before
it. -/
structure Knows (items : List (Item α)) (n : Nat) (s : Search) : Prop where
  opening : ∀ i, s.opening = some i ↔ IsOpen items n i
  found : ∀ p, p ∈ s.found ↔ p.IsInnermost items ∧ p.closing < n
  apart : s.found.Pairwise fun p q => p.closing < q.start

theorem knows_start (items : List (Item α)) : Knows items 0 {} where
  opening i := by
    constructor
    · rintro ⟨⟩
    · exact fun h => absurd h.lt (by omega)
  found p := by simp
  apart := .nil

/-- A `)` ends the innermost call that ends there, if there is one. -/
theorem Knows.close_eq_some_iff (hs : s.Knows items n) (hn : items[n]? = some (.char ')')) :
    s.close items n = some p ↔ p.IsInnermost items ∧ p.closing = n := by
  have hlength : n < items.length := (List.getElem?_eq_some_iff.mp hn).1
  simp only [close, Option.bind_eq_bind, Option.bind_eq_some_iff, Option.pure_def, Option.some.injEq]
  constructor
  · rintro ⟨opening, hopening, start, hstart, rfl⟩
    have hopen := (hs.opening opening).mp hopening
    have hle : opening ≤ items.length := (hopen.lt.trans hlength).le
    exact ⟨⟨hopen, hn, (nameStart?_eq_some_iff hle).mp hstart⟩, rfl⟩
  · rintro ⟨hp, rfl⟩
    have hstart := (nameStart?_eq_some_iff hp.opening_le).mpr hp.name
    exact ⟨p.opening, (hs.opening _).mpr hp.isOpen, p.start, hstart, rfl⟩

/-- An item that is no `)` ends no call. -/
theorem closing_lt_succ_iff (hn : items[n]? ≠ some (.char ')')) :
    p.IsInnermost items ∧ p.closing < n + 1 ↔ p.IsInnermost items ∧ p.closing < n := by
  refine and_congr_right fun hp => ?_
  have hne : p.closing ≠ n := by
    rintro rfl
    exact hn hp.closed
  omega

/-- **One item more.** -/
theorem knows_step (hs : s.Knows items n) (hx : items[n]? = some x) : (s.step items n x).Knows items (n + 1) := by
  unfold step
  split
  -- Whatever was open, a `(` is open from now on.
  · next hopen =>
    rw [Item.is_eq_true_iff.mp hopen] at hx
    refine ⟨fun i => ?_, fun p => ?_, hs.apart⟩
    · rw [isOpen_succ_iff]
      simp [hx, eq_comm]
    · rw [hs.found, closing_lt_succ_iff (by simp [hx])]
  · split
    -- Nothing is open after a `)`, and the call that it ends lies behind the others.
    · next _ hclose =>
      rw [Item.is_eq_true_iff.mp hclose] at hx
      refine ⟨fun i => ?_, fun p => ?_, ?_⟩
      · rw [isOpen_succ_iff]
        simp [hx]
      · rw [List.mem_append, Option.mem_toList, hs.close_eq_some_iff hx, hs.found, ← and_or_left,
          Nat.lt_succ_iff_lt_or_eq]
      · rw [List.pairwise_append]
        refine ⟨hs.apart, by cases s.close items n <;> simp, fun p hold q hnew => ?_⟩
        obtain ⟨hp, hlt⟩ := (hs.found p).mp hold
        obtain ⟨hq, rfl⟩ := (hs.close_eq_some_iff hx).mp (Option.mem_toList.mp hnew)
        exact hp.closing_lt_start hq hlt
    · next hopen hclose =>
      have hne : items[n]? ≠ some (.char '(') ∧ items[n]? ≠ some (.char ')') := by
        rw [hx]
        constructor
        · rintro ⟨⟩
          exact hopen rfl
        · rintro ⟨⟩
          exact hclose rfl
      refine ⟨fun i => ?_, fun p => ?_, hs.apart⟩
      · rw [hs.opening, isOpen_succ_iff]
        simp [hne]
      · rw [hs.found, closing_lt_succ_iff hne.2]

/-- **All items.** -/
theorem knows_run (hs : s.Knows items n) (hrest : items.drop n = rest) :
    (run items s n rest).Knows items (n + rest.length) := by
  induction rest generalizing s n with
  | nil => exact hs
  | cons x rest ih =>
    have hx : items[n]? = some x := by
      rw [← List.head?_drop, hrest, List.head?_cons]
    have hdrop : items.drop (n + 1) = rest := by
      rw [← List.tail_drop, hrest, List.tail_cons]
    have := ih (knows_step hs hx) hdrop
    rwa [Nat.add_assoc, Nat.add_comm 1] at this

end Search

theorem knows_search (items : List (Item α)) : (Search.run items {} 0 items).Knows items items.length := by
  simpa using Search.knows_run (Search.knows_start items) List.drop_zero

/-- **The walk finds the innermost calls and nothing else.** -/
theorem mem_search_iff : p ∈ search items ↔ p.IsInnermost items := by
  rw [search, (knows_search items).found]
  exact and_iff_left_of_imp IsInnermost.closing_lt

theorem pairwise_search (items : List (Item α)) : (search items).Pairwise fun p q => p.closing < q.start :=
  (knows_search items).apart

theorem nodup_search (items : List (Item α)) : (search items).Nodup := by
  refine (pairwise_search items).imp_of_mem fun {p q} hp _ hlt => ?_
  rintro rfl
  have hp := mem_search_iff.mp hp
  have hstart := hp.start_lt
  have hopen := hp.isOpen.lt
  omega

/-! ## The calls of a scan -/

theorem run_append (items : List (Item α)) (s : Search) (n : Nat) (xs ys : List (Item α)) :
    Search.run items s n (xs ++ ys) = Search.run items (Search.run items s n xs) (n + xs.length) ys := by
  induction xs generalizing s n with
  | nil => rfl
  | cons x xs ih =>
    rw [List.cons_append, Search.run, ih, Search.run, List.length_cons, Nat.add_assoc, Nat.add_comm 1]

theorem run_of_not_paren (h : ∀ x ∈ body, x.isParen = false) : Search.run items s n body = s := by
  induction body generalizing n with
  | nil => rfl
  | cons x body ih =>
    obtain ⟨hx, h⟩ := List.forall_mem_cons.mp h
    obtain ⟨hopen, hclose⟩ : x.is '(' = false ∧ x.is ')' = false := by simpa [Item.isParen] using hx
    rw [Search.run, Search.step, hopen, hclose]
    exact ih h

/-- The `(` in mind is the nearest parenthesis to the left. -/
def Search.Faces (left : List (Item α)) (s : Search) : Prop :=
  ∀ i, s.opening = some i →
    ∃ body before, left = body ++ .char '(' :: before ∧ (∀ y ∈ body, y.isParen = false) ∧ i = before.length

/-- A single item of an exact list of chunks ends no call. -/
theorem step_item (hs : s.Faces left) (rest : List (Item α))
    (hx : ∀ body before, x = .char ')' → left = body ++ .char '(' :: before → (∀ y ∈ body, y.isParen = false) →
      nameBefore before = []) :
    (s.step (left.reverse ++ x :: rest) left.length x).found = s.found ∧
      (s.step (left.reverse ++ x :: rest) left.length x).Faces (x :: left) := by
  unfold Search.step
  split
  · next hopen =>
    refine ⟨rfl, ?_⟩
    rintro _ ⟨⟩
    exact ⟨[], left, by rw [Item.is_eq_true_iff.mp hopen]; rfl, by simp, rfl⟩
  · next hopen =>
    split
    · next hclose =>
      refine ⟨?_, by rintro _ ⟨⟩⟩
      have hnone : s.close (left.reverse ++ x :: rest) left.length = none := by
        cases hopening : s.opening with
        | none => simp [Search.close, hopening]
        | some i =>
          obtain ⟨body, before, rfl, hbody, rfl⟩ := hs i hopening
          have hname := nameStart?_eq before (.char '(' :: (body.reverse ++ x :: rest))
          rw [if_pos (hx body before (Item.is_eq_true_iff.mp hclose) rfl hbody)] at hname
          simp [Search.close, hopening, hname]
      rw [hnone, Option.toList_none, List.append_nil]
    · next hclose =>
      refine ⟨rfl, fun i hi => ?_⟩
      obtain ⟨body, before, rfl, hbody, rfl⟩ := hs i hi
      have hparen : x.isParen = false := by simp [Item.isParen, hopen, hclose]
      exact ⟨x :: body, before, rfl, List.forall_mem_cons.mpr ⟨hparen, hbody⟩, rfl⟩

/-- The name of a call starts where the call starts. -/
theorem nameStart?_call (hname : Grammar.IsName name) (hleft : nameBefore left = []) (body rest : List (Item α)) :
    nameStart? (left.reverse ++ ((Chunk.call name body).spelling ++ rest)) (left.length + name.length) =
      some left.length := by
  have h := nameStart?_eq (name.reverse.map .char ++ left) (Chunk.group body ++ rest)
  rw [nameBefore_name hname hleft, if_neg hname.ne_nil] at h
  simpa [Chunk.spelling, Nat.add_comm] using h

/-- The walk finds a call, whatever it had in mind. -/
theorem run_call (hname : Grammar.IsName name) (hbody : ∀ y ∈ body, y.isParen = false)
    (hstart : nameStart? items (n + name.length) = some n) :
    Search.run items s n (Chunk.call name body).spelling =
      ⟨none, s.found ++ [⟨n, n + name.length, n + name.length + 1 + body.length⟩]⟩ := by
  have hchars : ∀ x ∈ name.map (Item.char : Char → Item α), x.isParen = false := isParen_of_isNameChar hname.isNameChar
  rw [Chunk.spelling, Chunk.group, run_append, run_of_not_paren hchars, List.cons_append, Search.run, run_append,
    run_of_not_paren hbody]
  simp [Search.step, Search.run, Search.close, Item.is, hstart]

/-- The walk finds the calls of an exact list of chunks. -/
theorem found_run_chunks {chunks : List (Chunk α)} (h : Chunk.Exact left chunks) (hs : s.Faces left) :
    (Search.run (left.reverse ++ chunks.flatMap Chunk.spelling) s left.length (chunks.flatMap Chunk.spelling)).found =
      s.found ++ Chunk.spans left.length chunks := by
  induction chunks generalizing left s with
  | nil => simp [Search.run, Chunk.spans]
  | cons chunk chunks ih =>
    rw [List.flatMap_cons, run_append]
    cases chunk with
    | item x =>
      obtain ⟨hx, h⟩ := h
      obtain ⟨hfound, hfaces⟩ := step_item hs (chunks.flatMap Chunk.spelling) hx
      have := ih h hfaces
      rw [hfound] at this
      simpa [Chunk.spelling, Search.run, Chunk.spans] using this
    | call name body =>
      obtain ⟨hname, hbody, hleft, h⟩ := h
      rw [run_call hname hbody (nameStart?_call hname hleft body _)]
      generalize hfound : s.found ++ [_] = found
      have hfaces : Search.Faces ((Chunk.call name body).spelling.reverse ++ left) ⟨none, found⟩ := by rintro _ ⟨⟩
      have := ih h hfaces
      rw [← hfound] at this ⊢
      simpa [Chunk.spelling, Chunk.group, Chunk.spans, Nat.add_assoc, Nat.add_comm, Nat.add_left_comm] using this

/-- **The walk finds the calls of the scan.** -/
theorem search_eq_spans (items : List (Item α)) : search items = Chunk.spans 0 (Chunk.scan items) := by
  have h := found_run_chunks (s := {}) (Chunk.exact_scan items) (by rintro _ ⟨⟩)
  simpa [Chunk.flatMap_spelling_scan, search] using h

/-! ## The cut -/

theorem slice?_eq (before xs rest : List (Item α)) (hitems : items = before ++ (xs ++ rest))
    (hi : i = before.length) : slice? items i (i + xs.length) = some xs := by
  subst hitems hi
  simp [slice?]

/-- **Items that are cut at the spans of their calls are cut into their chunks.** The items before the position are
done, and those of `waiting` come between it and the next chunk. -/
theorem cut_spans {chunks : List (Chunk α)} (done waiting : List (Item α))
    (hitems : items = done ++ (waiting ++ chunks.flatMap Chunk.spelling)) (hn : n = done.length + waiting.length) :
    cut items done.length (Chunk.spans n chunks) = some (waiting.map .item ++ chunks) := by
  induction chunks generalizing n done waiting with
  | nil =>
    have hrest := slice?_eq done waiting [] hitems rfl
    have hlength : items.length = done.length + waiting.length := by simp [hitems]
    rw [← hlength] at hrest
    simp [cut, Chunk.spans, hrest]
  | cons chunk chunks ih =>
    cases chunk with
    | item x =>
      rw [Chunk.spans, ih done (waiting ++ [x]) (by simpa [Chunk.spelling] using hitems) (by simp; omega)]
      simp
    | call name body =>
      let tail := chunks.flatMap Chunk.spelling
      have hwaiting : slice? items done.length n = some waiting := by
        rw [hn]
        exact slice?_eq done waiting _ hitems rfl
      have hname : slice? items n (n + name.length) = some (name.map .char) := by
        have h := slice?_eq (done ++ waiting) (name.map .char) (Chunk.group body ++ tail)
          (by simpa [Chunk.spelling, tail] using hitems) (by simpa using hn)
        rwa [List.length_map] at h
      have hbody : slice? items (n + name.length + 1) (n + name.length + 1 + body.length) = some body :=
        slice?_eq (done ++ (waiting ++ (name.map .char ++ [.char '(']))) body (.char ')' :: tail)
          (by simpa [Chunk.spelling, Chunk.group, tail] using hitems) (by simp; omega)
      have hlength : (done ++ (waiting ++ (Chunk.call name body).spelling)).length =
          n + name.length + 1 + body.length + 1 := by
        simp [Chunk.spelling, Chunk.group]
        omega
      have hrest := ih (done ++ (waiting ++ (Chunk.call name body).spelling)) [] (by simpa using hitems) hlength.symm
      rw [hlength] at hrest
      have hchars : (name.map (Item.char : Char → Item α)).filterMap Item.char? = name := by
        simp [List.filterMap_map, Function.comp_def, Item.char?]
      rw [Chunk.spans, cut]
      simp [hwaiting, hname, hbody, hrest, hchars]

/-! ## The items of a pass -/

/-- **A pass finds exactly the innermost calls.** One walk from left to right finds the calls of the scan. These are the
innermost calls with their whole names, each once and in order, and each ends before the name of the next one starts.
So all slices at them are in range, and the items are cut there into the chunks of the scan. The chunks spell the items,
and a pass that does not fail keeps each item outside of the calls and puts one token in place of each call. -/
theorem search_innermost (items : List (Item Token)) :
    search items = Chunk.spans 0 (Chunk.scan items) ∧
    (∀ p, p ∈ search items ↔ p.IsInnermost items) ∧
    (search items).Nodup ∧
    ((search items).Pairwise fun p q => p.closing < q.start) ∧
    (∀ p ∈ search items, p.start < p.opening ∧ p.opening < p.closing ∧ p.closing < items.length) ∧
    cut items 0 (search items) = some (Chunk.scan items) ∧
    (Chunk.scan items).flatMap Chunk.spelling = items ∧
    ∀ d s s' items', (Dialect.resolve d s (Chunk.scan items)).result = .ok (s', items') →
      List.Forall₂ Chunk.Becomes (Chunk.scan items) items' := by
  have hcut : cut items 0 (Chunk.spans 0 (Chunk.scan items)) = some (Chunk.scan items) :=
    cut_spans [] [] (Chunk.flatMap_spelling_scan items).symm rfl
  refine ⟨search_eq_spans items, fun p => mem_search_iff, nodup_search items, pairwise_search items, fun p hp => ?_, ?_,
    Chunk.flatMap_spelling_scan items, fun d s s' items' => Dialect.becomes_of_resolve⟩
  · have hp := mem_search_iff.mp hp
    exact ⟨hp.start_lt, hp.isOpen.lt, hp.closing_lt⟩
  · rw [search_eq_spans]
    exact hcut

/-- Digits are no name and no part of one at its start. The name of the second call starts right after the first call,
the group around the third call has no name, and the last group has only a digit before it. -/
theorem search_innermost_mixed :
    let items : List (Item Token) :=
      "9f(x)g(".toList.map .char ++ .token ⟨0⟩ :: ")(y)(h())2(z)".toList.map .char
    search items = [⟨1, 2, 4⟩, ⟨5, 6, 8⟩, ⟨13, 14, 15⟩] ∧
    IsInnermost items ⟨5, 6, 8⟩ ∧ ¬ IsInnermost items ⟨12, 12, 16⟩ ∧ ¬ IsInnermost items ⟨17, 18, 20⟩ ∧
    15 < items.length ∧
    ∃ s items', (Dialect.resolve {} ⟨#[.literal "a"]⟩ (Chunk.scan items)).result = .ok (s, items') ∧
      List.Forall₂ Chunk.Becomes (Chunk.scan items) items' := by
  intro items
  have hsearch : search items = [⟨1, 2, 4⟩, ⟨5, 6, 8⟩, ⟨13, 14, 15⟩] := by decide
  have hresolve : (Dialect.resolve {} ⟨#[.literal "a"]⟩ (Chunk.scan items)).result =
      .ok (⟨#[.literal "a", .variable "x", .call "f" [⟨1⟩], .call "g" [⟨0⟩], .call "h" []]⟩,
        .char '9' :: .token ⟨2⟩ :: .token ⟨3⟩ :: "(y)(".toList.map .char ++
          .token ⟨4⟩ :: ")2(z)".toList.map .char) := by
    decide
  obtain ⟨-, hmem, -, -, hrange, -, -, hpass⟩ := search_innermost items
  rw [hsearch] at hmem hrange
  refine ⟨hsearch, (hmem _).mp (by decide), fun h => ?_, fun h => ?_, (hrange ⟨13, 14, 15⟩ (by decide)).2.2,
    _, _, hresolve, hpass _ _ _ _ hresolve⟩
  · exact absurd ((hmem _).mpr h) (by decide)
  · exact absurd ((hmem _).mpr h) (by decide)

end Span

end CallExpr
