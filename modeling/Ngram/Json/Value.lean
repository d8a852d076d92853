import Ngram.Json.Token

/-!
# JSON values

Tokens are put together to a value by a machine with a stack: a frame for each list and object that
is open, holding what is complete in it. One token is read per step, and what may come next is one
of seven cases, so the machine takes any depth and ends with the tokens.
-/

namespace Ngram.Json

/-- The pieces of a string. -/
abbrev RawText := List Piece

inductive Value where
  | null
  | bool (b : Bool)
  | numeral (n : Numeral)
  | string (s : RawText)
  | list (items : List Value)
  | object (fields : List (RawText × Value))
deriving Inhabited

/-- A list or object that is open; what is complete in it is held in reverse. -/
inductive Frame where
  | list (items : List Value)
  /-- `key` belongs to the value that is being read. -/
  | object (fields : List (RawText × Value)) (key : RawText)

/-- What may come next. -/
inductive Expected where
  | value
  /-- A value, or the end of a list that was just opened. -/
  | itemOrEnd
  /-- A comma or the end of what is open. -/
  | commaOrEnd
  /-- A key, or the end of an object that was just opened. -/
  | keyOrEnd (fields : List (RawText × Value))
  | key (fields : List (RawText × Value))
  | colon
  /-- Nothing: the value is complete. -/
  | nothing (v : Value)

/-- A machine between two tokens. -/
structure Machine where
  stack : List Frame
  expected : Expected

namespace Machine

/-- Takes a complete value in. -/
def complete (stack : List Frame) (v : Value) : Machine :=
  match stack with
  | [] => ⟨[], .nothing v⟩
  | .list items :: stack => ⟨.list (v :: items) :: stack, .commaOrEnd⟩
  | .object fields key :: stack => ⟨.object ((key, v) :: fields) [] :: stack, .commaOrEnd⟩

/-- Reads the first token of a value. -/
def startValue (stack : List Frame) : Token → Option Machine
  | .null => some (complete stack .null)
  | .bool b => some (complete stack (.bool b))
  | .numeral n => some (complete stack (.numeral n))
  | .string s => some (complete stack (.string s))
  | .openList => some ⟨.list [] :: stack, .itemOrEnd⟩
  | .openObject => some ⟨stack, .keyOrEnd []⟩
  | _ => none

/-- Reads a key of an object with the given fields. -/
def startField (stack : List Frame) (fields : List (RawText × Value)) :
    Token → Option Machine
  | .string key => some ⟨.object fields key :: stack, .colon⟩
  | _ => none

/-- Reads what stands behind a value that is part of another. -/
def afterValue (stack : List Frame) (t : Token) : Option Machine :=
  match stack, t with
  | .list items :: stack, .comma => some ⟨.list items :: stack, .value⟩
  | .list items :: stack, .closeList => some (complete stack (.list items.reverse))
  | .object fields _ :: stack, .comma => some ⟨stack, .key fields⟩
  | .object fields _ :: stack, .closeObject => some (complete stack (.object fields.reverse))
  | _, _ => none

/-- Reads one token. -/
def step (m : Machine) (t : Token) : Option Machine :=
  match m.expected with
  | .value => startValue m.stack t
  | .itemOrEnd =>
    match m.stack, t with
    | .list [] :: stack, .closeList => some (complete stack (.list []))
    | stack, t => startValue stack t
  | .commaOrEnd => afterValue m.stack t
  | .keyOrEnd fields =>
    match t with
    | .closeObject => some (complete m.stack (.object fields.reverse))
    | t => startField m.stack fields t
  | .key fields => startField m.stack fields t
  | .colon => if t = .colon then some ⟨m.stack, .value⟩ else none
  | .nothing _ => none

/-- Reads tokens to their end, where a value has to be complete. -/
def run (m : Machine) : List Token → Option Value
  | [] => match m.expected with
    | .nothing v => some v
    | _ => none
  | t :: ts => match m.step t with
    | some m => m.run ts
    | none => none

end Machine

/-- Reads a text that holds one value. -/
def parse? (bs : Bytes) : Option Value := do
  let ts ← tokens? bs
  Machine.run ⟨[], .value⟩ ts

/-- The bytes of a character. -/
def utf8 (code : Nat) : Bytes := (Char.ofNat code).toString.toUTF8.toList

/-- The bytes of a string; an escaped unit of a pair has to stand next to its partner. -/
def textBytes? : RawText → Option Bytes
  | [] => some []
  | .byte b :: ps => (textBytes? ps).map (b :: ·)
  | .unit u :: ps =>
    if u < 0xd800 || 0xdfff < u then (textBytes? ps).map (utf8 u.toNat ++ ·)
    else match ps with
      | .unit v :: ps =>
        if u < 0xdc00 && 0xdc00 ≤ v && v ≤ 0xdfff then
          (textBytes? ps).map
            (utf8 (0x10000 + (u.toNat - 0xd800) * 0x400 + (v.toNat - 0xdc00)) ++ ·)
        else none
      | _ => none

/-- The text that a string stands for, if it is one. -/
def text? (s : RawText) : Option String := do
  let bs ← textBytes? s
  String.fromUTF8? ⟨bs.toArray⟩

/-- The fields of a record in the order of their names: from an object, in which other fields are
skipped and none of these is given twice, or from a list, which may end early. -/
def fields? (names : List String) : Value → Option (List (Option Value))
  | .list items =>
    if items.length ≤ names.length then
      some (items.map some ++ List.replicate (names.length - items.length) none)
    else none
  | .object fields => do
    let fields ← fields.mapM fun (key, v) => do some (← text? key, v)
    names.mapM fun name =>
      match fields.filter fun f => f.1 == name with
      | [] => some none
      | [f] => some (some f.2)
      | _ => none
  | _ => none

/-- The value of some digits. -/
def Numeral.value (ds : List Nat) : Nat := ds.foldl (fun n d => 10 * n + d) 0

/-- A whole number without sign, point or exponent, up to a maximum. -/
def count? (max : Nat) : Value → Option Nat
  | .numeral ⟨false, whole, none, none⟩ =>
    let n := Numeral.value whole
    if n ≤ max then some n else none
  | _ => none

/-- The digits of a numeral as far as they fit 64 bits, and the power of ten that they count. -/
structure Significand where
  digits : Nat
  power : Int

namespace Significand

/-- A further digit, if there is room for it. -/
def push? (s : Significand) (d : Nat) : Option Nat :=
  let n := 10 * s.digits + d
  if n < 2 ^ 64 then some n else none

/-- Digits in front of the point. From the first one without room on they only count. -/
def whole (s : Significand) : List Nat → Significand
  | [] => s
  | d :: ds => match s.push? d with
    | some n => whole { s with digits := n } ds
    | none => { s with power := s.power + (d :: ds).length }

/-- Digits behind the point. From the first one without room on they are dropped. -/
def places (s : Significand) : List Nat → Significand
  | [] => s
  | d :: ds => match s.push? d with
    | some n => places ⟨n, s.power - 1⟩ ds
    | none => s

/-- A quotient by a power of ten; far below the range it is taken in two parts or more. -/
def divide (f : Float) (power : Nat) : Float :=
  if power ≤ 308 then f / Float.ofScientific 1 false power
  else if f == 0 then f
  else divide (f / 1e308) (power - 308)
termination_by power

/-- The number, with one multiplication or division by a power of ten; none if it is too large. -/
def scale (s : Significand) : Option Float :=
  let f := s.digits.toUInt64.toFloat
  if s.power < 0 then some (divide f (-s.power).toNat)
  else if s.power ≤ 308 then
    let f := f * Float.ofScientific 1 false s.power.toNat
    if f.isInf then none else some f
  else if f == 0 then some f else none

end Significand

/-- The largest exponent that is worked out. -/
def maxExponent : Nat := 2 ^ 31 - 1

/-- The magnitude of a numeral. -/
def Numeral.magnitude? (n : Numeral) : Option Float :=
  let s := (Significand.mk 0 0).whole n.whole
  let s := s.places (n.places.getD [])
  match n.exponent with
  | none => s.scale
  | some (negative, ds) =>
    let e := Numeral.value ds
    if maxExponent < e then if s.digits = 0 || negative then some 0 else none
    else { s with power := s.power + (if negative then -(e : Int) else e) }.scale

/-- A number of 64 bits. -/
def Numeral.double? (n : Numeral) : Option Double :=
  n.magnitude?.map fun f => .ofValue (if n.negative then -f else f)

/-- A number of 32 bits. A whole number is rounded once, any other by way of 64 bits. -/
def Numeral.single? (n : Numeral) : Option Single :=
  let whole := Numeral.value n.whole
  let limit := if n.negative then 2 ^ 63 else 2 ^ 64 - 1
  if n.places.isNone && n.exponent.isNone && whole ≤ limit then
    let f := whole.toUInt64.toFloat32
    some (.ofValue (if n.negative then -f else f))
  else n.double?.map fun d => .ofValue d.value.toFloat32

def double? : Value → Option Double
  | .numeral n => n.double?
  | _ => none

def single? : Value → Option Single
  | .numeral n => n.single?
  | _ => none

/-- A field that has to be there. -/
def required? {α : Type} (read : Value → Option α) (v : Option Value) : Option α := v.bind read

/-- A field with a default. -/
def optional? {α : Type} (read : Value → Option α) (default : α) : Option Value → Option α
  | none => some default
  | some v => read v

/-- Writes a record of whole numbers without blanks. -/
def compact (fields : List (String × Nat)) : String :=
  "\x7b" ++ String.intercalate "," (fields.map fun (name, n) => s!"\"{name}\":{n}") ++ "\x7d"

end Ngram.Json
