import FactoryMethods.Markup.Fault

/-! References in attribute values. Each reference stands for one character: a predefined entity, or
a character given by its number. Everything else in a value stands for itself. Escaping writes a
reference for each character that a value cannot hold or would not keep. -/
namespace FactoryMethods
namespace Markup

def predefined? : List Char → Option Char
  | ['l', 't'] => some '<'
  | ['g', 't'] => some '>'
  | ['a', 'm', 'p'] => some '&'
  | ['a', 'p', 'o', 's'] => some '\''
  | ['q', 'u', 'o', 't'] => some '"'
  | _ => none

/-- The value of an ASCII digit below `base`, for a base up to sixteen. -/
def digit? (base : Nat) (c : Char) : Option Nat :=
  let value? :=
    if '0' ≤ c ∧ c ≤ '9' then some (c.toNat - '0'.toNat)
    else if 'a' ≤ c ∧ c ≤ 'f' then some (c.toNat - 'a'.toNat + 10)
    else if 'A' ≤ c ∧ c ≤ 'F' then some (c.toNat - 'A'.toNat + 10)
    else none
  value?.filter (· < base)

/-- Reads digits after those that make `value`; the number has to fit in 32 bits. -/
def number (base value : Nat) : List Char → Except ReferenceFault Nat
  | [] => .ok value
  | c :: rest =>
    match digit? base c with
    | none => .error .badDigit
    | some d =>
      if value * base + d < 2 ^ 32 then number base (value * base + d) rest
      else .error .tooLarge

def numbered (base : Nat) : List Char → Except ReferenceFault Char
  | [] => .error .noDigits
  | c :: rest =>
    if c = '+' ∨ c = '-' then .error .sign
    else
      match number base 0 (c :: rest) with
      | .error f => .error f
      | .ok code =>
        if code = 0 then .error .zero
        else if code.isValidChar then .ok (Char.ofNat code)
        else .error (.notCharacter code)

/-- The character that the reference written between `start` and `stop` stands for. -/
def referenced (start stop : Nat) : List Char → Except ReferenceFault Char
  | '#' :: 'x' :: digits => numbered 16 digits
  | '#' :: digits => numbered 10 digits
  | name =>
    match predefined? name with
    | some c => .ok c
    | none => .error (.unknown start stop (String.ofList name))

/-- Reads a value on from byte `position` of `length`. `pending` is a reference under way: where it
starts and what it holds so far, latest character first. -/
def unescapeFrom (length position : Nat) (pending : Option (Nat × List Char)) :
    List Char → Except ReferenceFault (List Char)
  | [] =>
    match pending with
    | none => .ok []
    | some (start, _) => .error (.unterminated start length)
  | c :: rest =>
    let after := position + c.utf8Size
    match pending with
    | none =>
      if c = '&' then unescapeFrom length after (some (position, [])) rest
      else (unescapeFrom length after none rest).map (c :: ·)
    | some (start, name) =>
      if c = '&' then .error (.unterminated start length)
      else if c = ';' then
        match referenced (start + 1) position name.reverse with
        | .error f => .error f
        | .ok r => (unescapeFrom length after none rest).map (r :: ·)
      else unescapeFrom length after (some (start, c :: name)) rest

def unescape (value : String) : Except ReferenceFault String :=
  (unescapeFrom value.utf8ByteSize 0 none value.toList).map String.ofList

def escapeChar : Char → List Char
  | '&' => ['&', 'a', 'm', 'p', ';']
  | '<' => ['&', 'l', 't', ';']
  | '>' => ['&', 'g', 't', ';']
  | '"' => ['&', 'q', 'u', 'o', 't', ';']
  | '\'' => ['&', 'a', 'p', 'o', 's', ';']
  | '\t' => ['&', '#', '9', ';']
  | '\n' => ['&', '#', '1', '0', ';']
  | '\r' => ['&', '#', '1', '3', ';']
  | c => [c]

def escape (s : String) : String := String.ofList (s.toList.flatMap escapeChar)

end Markup
end FactoryMethods
