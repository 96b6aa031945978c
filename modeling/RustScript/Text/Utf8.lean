/-
  Reading bytes as UTF-8.

  When no character stands at the front, `scalar?` says how many bytes form the longest part that
  could have begun one, so that a lenient reader can put one replacement mark per such part and a
  strict one can refuse.
-/
namespace RustScript.Text

/-- What stands at the front of a byte sequence: a character with the number of its bytes, or an
    ill-formed part of that length. -/
inductive Unit8 where
  | char (value : Char) (size : Nat)
  | bad (size : Nat)

def isContinuation (b : UInt8) : Bool := 0x80 ≤ b.toNat && b.toNat ≤ 0xBF

/-- The number of continuation bytes that follow `lead`, and the range of the first of them; the
    ranges leave out overlong forms, surrogates and numbers past the last code point. -/
def leadShape (lead : Nat) : Option (Nat × Nat × Nat) :=
  if 0xC2 ≤ lead && lead ≤ 0xDF then some (1, 0x80, 0xBF)
  else if lead == 0xE0 then some (2, 0xA0, 0xBF)
  else if lead == 0xED then some (2, 0x80, 0x9F)
  else if 0xE1 ≤ lead && lead ≤ 0xEF then some (2, 0x80, 0xBF)
  else if lead == 0xF0 then some (3, 0x90, 0xBF)
  else if 0xF1 ≤ lead && lead ≤ 0xF3 then some (3, 0x80, 0xBF)
  else if lead == 0xF4 then some (3, 0x80, 0x8F)
  else none

/-- The payload bits of a lead byte followed by `count` bytes. -/
def leadBits (lead count : Nat) : Nat :=
  match count with
  | 1 => lead % 0x20
  | 2 => lead % 0x10
  | _ => lead % 0x08

/-- Reads the continuation bytes still due; `size` bytes have been read and give `value`. -/
def continuation (due size value : Nat) : List UInt8 → Unit8
  | [] => if due == 0 then .char (Char.ofNat value) size else .bad size
  | b :: bs =>
    match due with
    | 0 => .char (Char.ofNat value) size
    | due + 1 =>
      if isContinuation b then continuation due (size + 1) (value * 0x40 + b.toNat % 0x40) bs
      else .bad size

/-- Reads the front of a byte sequence that starts with `lead`. -/
def scalar (lead : UInt8) (rest : List UInt8) : Unit8 :=
  if lead.toNat < 0x80 then .char (Char.ofNat lead.toNat) 1
  else
    match leadShape lead.toNat with
    | none => .bad 1
    | some (count, lo, hi) =>
      match rest with
      | [] => .bad 1
      | b :: bs =>
        if lo ≤ b.toNat && b.toNat ≤ hi then
          continuation (count - 1) 2 (leadBits lead.toNat count * 0x40 + b.toNat % 0x40) bs
        else .bad 1

/-- Reads bytes as text with one U+FFFD for each ill-formed part; `skip` bytes belong to the
    character or part just read. -/
def decodeLossyFrom : (skip : Nat) → List UInt8 → List Char
  | _, [] => []
  | skip + 1, _ :: bs => decodeLossyFrom skip bs
  | 0, b :: bs =>
    match scalar b bs with
    | .char c size => c :: decodeLossyFrom (size - 1) bs
    | .bad size => Char.ofNat 0xFFFD :: decodeLossyFrom (size - 1) bs

/-- Reads bytes as text; ill-formed parts become replacement marks. -/
def decodeLossy (bytes : List UInt8) : String := String.ofList (decodeLossyFrom 0 bytes)

/-- Reads bytes as text, none when a part is ill-formed; `skip` as above. -/
def decodeFrom : (skip : Nat) → List UInt8 → Option (List Char)
  | _, [] => some []
  | skip + 1, _ :: bs => decodeFrom skip bs
  | 0, b :: bs =>
    match scalar b bs with
    | .char c size => (decodeFrom (size - 1) bs).map (c :: ·)
    | .bad _ => none

/-- Reads bytes as text, none when a part is ill-formed. -/
def decode? (bytes : List UInt8) : Option String := (decodeFrom 0 bytes).map String.ofList

def encodeChar (c : Char) : List UInt8 :=
  let n := c.toNat
  if n < 0x80 then [n.toUInt8]
  else if n < 0x800 then [(0xC0 + n / 0x40).toUInt8, (0x80 + n % 0x40).toUInt8]
  else if n < 0x10000 then
    [(0xE0 + n / 0x1000).toUInt8, (0x80 + n / 0x40 % 0x40).toUInt8, (0x80 + n % 0x40).toUInt8]
  else
    [(0xF0 + n / 0x40000).toUInt8, (0x80 + n / 0x1000 % 0x40).toUInt8,
     (0x80 + n / 0x40 % 0x40).toUInt8, (0x80 + n % 0x40).toUInt8]

def encode (s : String) : List UInt8 := s.toList.flatMap encodeChar

end RustScript.Text
