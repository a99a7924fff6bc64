import CallExpr.Source.Lexeme

/-!
# The grammar of lexemes

The lexemes of a source once more, as a grammar of parsing expressions.

* `Peg`: a parsing expression. A choice takes the first part that matches, and a repetition matches as often as it can.
* `Peg.Parses`: what a parsing expression does with characters.
* `Lexeme.grammar`: the rules for a source, its texts and its literals.
* `Lexeme.Scanned`: the lexemes that the grammar finds in a source.
-/

namespace CallExpr

/-- A parsing expression. -/
inductive Peg (ρ : Type) where
  /-- Nothing, at the start of the input. -/
  | start
  /-- Nothing, at the end of the input. -/
  | finish
  | any
  | char (c : Char)
  | seq (first second : Peg ρ)
  | choice (first second : Peg ρ)
  | star (e : Peg ρ)
  | optional (e : Peg ρ)
  /-- Nothing, where `e` does not match. -/
  | notAhead (e : Peg ρ)
  | rule (name : ρ)

namespace Peg

variable {ρ : Type}

/-- Once or more. -/
def plus (e : Peg ρ) : Peg ρ :=
  seq e (star e)

/-- The characters that a rule matched, with the byte at which they start and the parts in them. -/
inductive Part (ρ : Type) where
  | mk (name : ρ) (offset : Nat) (chars : List Char) (inner : List (Part ρ))

namespace Part

def name : Part ρ → ρ
  | mk name _ _ _ => name

def offset : Part ρ → Nat
  | mk _ offset _ _ => offset

def chars : Part ρ → List Char
  | mk _ _ chars _ => chars

def inner : Part ρ → List (Part ρ)
  | mk _ _ _ inner => inner

end Part

/-- The rules of a grammar. Nothing is skipped between the parts of a rule. -/
structure Rules (ρ : Type) where
  body : ρ → Peg ρ
  /-- An atomic rule hides the parts in it. -/
  atomic : ρ → Bool

/-- What was matched, and the characters behind it. -/
structure Match (ρ : Type) where
  parts : List (Part ρ)
  taken : List Char
  rest : List Char

namespace Match

/-- Nothing was taken. -/
def before (rest : List Char) : Match ρ :=
  ⟨[], [], rest⟩

/-- One character was taken. -/
def one (c : Char) (rest : List Char) : Match ρ :=
  ⟨[], [c], rest⟩

/-- A match right behind another. -/
def andThen (m n : Match ρ) : Match ρ :=
  ⟨m.parts ++ n.parts, m.taken ++ n.taken, n.rest⟩

/-- The match of a rule is one part. -/
def asPart (rules : Rules ρ) (name : ρ) (offset : Nat) (m : Match ρ) : Match ρ :=
  ⟨[.mk name offset m.taken (if rules.atomic name then [] else m.parts)], m.taken, m.rest⟩

end Match

/-- What a parsing expression does with the characters that start at a byte: it matches, or it fails (`none`). -/
inductive Parses (rules : Rules ρ) : Peg ρ → (offset : Nat) → List Char → Option (Match ρ) → Prop
  | start (cs : List Char) : Parses rules .start 0 cs (some (.before cs))
  | start_later {offset : Nat} {cs : List Char} : offset ≠ 0 → Parses rules .start offset cs none
  | finish (offset : Nat) : Parses rules .finish offset [] (some (.before []))
  | finish_cons (offset : Nat) (c : Char) (cs : List Char) : Parses rules .finish offset (c :: cs) none
  | any (offset : Nat) (c : Char) (cs : List Char) : Parses rules .any offset (c :: cs) (some (.one c cs))
  | any_nil (offset : Nat) : Parses rules .any offset [] none
  | char (offset : Nat) (c : Char) (cs : List Char) : Parses rules (.char c) offset (c :: cs) (some (.one c cs))
  | char_ne {offset : Nat} {c : Char} {cs : List Char} : cs.head? ≠ some c → Parses rules (.char c) offset cs none
  | seq {a b : Peg ρ} {offset : Nat} {cs : List Char} {m : Match ρ} {r : Option (Match ρ)} :
    Parses rules a offset cs (some m) → Parses rules b (offset + Lexeme.byteSize m.taken) m.rest r →
    Parses rules (.seq a b) offset cs (r.map m.andThen)
  | seq_fail {a b : Peg ρ} {offset : Nat} {cs : List Char} :
    Parses rules a offset cs none → Parses rules (.seq a b) offset cs none
  | choice_first {a b : Peg ρ} {offset : Nat} {cs : List Char} {m : Match ρ} :
    Parses rules a offset cs (some m) → Parses rules (.choice a b) offset cs (some m)
  | choice_second {a b : Peg ρ} {offset : Nat} {cs : List Char} {r : Option (Match ρ)} :
    Parses rules a offset cs none → Parses rules b offset cs r → Parses rules (.choice a b) offset cs r
  | star_cons {e : Peg ρ} {offset : Nat} {cs : List Char} {m : Match ρ} {r : Option (Match ρ)} :
    Parses rules e offset cs (some m) → Parses rules (.star e) (offset + Lexeme.byteSize m.taken) m.rest r →
    Parses rules (.star e) offset cs (r.map m.andThen)
  | star_nil {e : Peg ρ} {offset : Nat} {cs : List Char} :
    Parses rules e offset cs none → Parses rules (.star e) offset cs (some (.before cs))
  | optional {e : Peg ρ} {offset : Nat} {cs : List Char} {m : Match ρ} :
    Parses rules e offset cs (some m) → Parses rules (.optional e) offset cs (some m)
  | optional_none {e : Peg ρ} {offset : Nat} {cs : List Char} :
    Parses rules e offset cs none → Parses rules (.optional e) offset cs (some (.before cs))
  | notAhead {e : Peg ρ} {offset : Nat} {cs : List Char} :
    Parses rules e offset cs none → Parses rules (.notAhead e) offset cs (some (.before cs))
  | notAhead_fail {e : Peg ρ} {offset : Nat} {cs : List Char} {m : Match ρ} :
    Parses rules e offset cs (some m) → Parses rules (.notAhead e) offset cs none
  | rule {name : ρ} {offset : Nat} {cs : List Char} {r : Option (Match ρ)} :
    Parses rules (rules.body name) offset cs r →
    Parses rules (.rule name) offset cs (r.map (.asPart rules name offset))

end Peg

namespace Lexeme

/-- The rules for lexemes. -/
inductive Rule where
  | source
  | literal
  | content
  | text
  | unterminated
  | finish
  deriving DecidableEq, Repr

def quote : Peg Rule :=
  .char quoteMark

/-- A character that is no quote. -/
def unquoted : Peg Rule :=
  .seq (.notAhead quote) .any

/-- Literals and texts fill a source. An unterminated literal may end it. -/
def grammar : Peg.Rules Rule where
  body
    | .source =>
      .seq (.seq (.seq .start (.star (.choice (.rule .literal) (.rule .text)))) (.optional (.rule .unterminated)))
        (.rule .finish)
    | .literal => .seq (.seq quote (.rule .content)) quote
    | .content => .star unquoted
    | .text => .plus unquoted
    | .unterminated => .seq quote (.star .any)
    | .finish => .finish
  atomic
    | .content | .text | .unterminated => true
    | .source | .literal | .finish => false

/-- The lexeme of a part of a source. An unterminated literal is an error at the byte where it starts. -/
def ofPart (part : Peg.Part Rule) : Except Nat (Option Lexeme) :=
  match part.name with
  | .text => .ok (some (text (.ofList part.chars)))
  | .literal => .ok (some (literal (.ofList (part.inner.head?.elim [] Peg.Part.chars))))
  | .unterminated => .error part.offset
  | _ => .ok none

/-- The lexemes of the parts of a source, up to the first error. -/
def ofParts (parts : List (Peg.Part Rule)) : Except Nat (List Lexeme) := do
  return (← parts.mapM ofPart).reduceOption

/-- What the grammar makes of a source. Without a match there is no result (`none`). -/
def Scanned (source : String) (r : Option (Except Nat (List Lexeme))) : Prop :=
  ∃ m, Peg.Parses grammar (.rule .source) 0 source.toList m ∧
    r = m.map fun m => ofParts (m.parts.head?.elim [] Peg.Part.inner)

end Lexeme

end CallExpr
