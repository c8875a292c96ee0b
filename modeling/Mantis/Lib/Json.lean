import Mathlib.Data.List.Basic

/-!
# JSON texts

The grammar of JSON as concrete syntax: a document keeps its insignificant whitespace and
the spelling of its strings and numbers, so that `spelling` gives back the text it was
read from. A value is well formed by construction, and every well-formed text is the
spelling of one.

The characters a string stands for are its UTF-16 code units, as in the escapes.
-/

namespace Json

/-! ### Whitespace -/

/-- Insignificant whitespace. -/
inductive Blank
  | space
  | tab
  | lineFeed
  | carriageReturn
  deriving DecidableEq, Repr

def Blank.char : Blank → Char
  | .space => ' '
  | .tab => '\t'
  | .lineFeed => '\n'
  | .carriageReturn => '\r'

/-- A run of whitespace. -/
def blanks (bs : List Blank) : List Char := bs.map Blank.char

/-! ### Strings -/

/-- A character that stands for itself in a string. -/
structure Plain where
  char : Char
  not_control : 0x20 ≤ char.toNat
  ne_quote : char ≠ '"'
  ne_backslash : char ≠ '\\'
  deriving DecidableEq, Repr

/-- The two-character escapes. -/
inductive Escape
  | quote
  | backslash
  | slash
  | backspace
  | formFeed
  | lineFeed
  | carriageReturn
  | tab
  deriving DecidableEq, Repr

/-- The character after the backslash. -/
def Escape.letter : Escape → Char
  | .quote => '"'
  | .backslash => '\\'
  | .slash => '/'
  | .backspace => 'b'
  | .formFeed => 'f'
  | .lineFeed => 'n'
  | .carriageReturn => 'r'
  | .tab => 't'

/-- The code unit an escape stands for. -/
def Escape.unit : Escape → Nat
  | .quote => 0x22
  | .backslash => 0x5C
  | .slash => 0x2F
  | .backspace => 0x08
  | .formFeed => 0x0C
  | .lineFeed => 0x0A
  | .carriageReturn => 0x0D
  | .tab => 0x09

/-- A hexadecimal digit, in either case. -/
structure HexDigit where
  value : Fin 16
  upper : Bool
  deriving DecidableEq, Repr

def HexDigit.char (d : HexDigit) : Char :=
  if d.value.val < 10 then Char.ofNat (48 + d.value.val)
  else if d.upper then Char.ofNat (55 + d.value.val)
  else Char.ofNat (87 + d.value.val)

/-- A piece of a string: one character as it is, or an escape. -/
inductive Piece
  | plain (c : Plain)
  | escape (e : Escape)
  | unicode (a b c d : HexDigit)
  deriving DecidableEq, Repr

namespace Piece

/-- How the piece is written. -/
def spelling : Piece → List Char
  | plain c => [c.char]
  | escape e => ['\\', e.letter]
  | unicode a b c d => ['\\', 'u', a.char, b.char, c.char, d.char]

/-- The code units it stands for; a character beyond the basic plane is two. -/
def units : Piece → List Nat
  | plain c =>
      if c.char.toNat < 0x10000 then [c.char.toNat]
      else [0xD800 + (c.char.toNat - 0x10000) / 0x400, 0xDC00 + (c.char.toNat - 0x10000) % 0x400]
  | escape e => [e.unit]
  | unicode a b c d =>
      [((a.value.val * 16 + b.value.val) * 16 + c.value.val) * 16 + d.value.val]

def isPlain : Piece → Bool
  | plain _ => true
  | escape _ | unicode .. => false

end Piece

/-- The inside of a string. -/
abbrev Text := List Piece

namespace Text

/-- The inside of the string as it is written. -/
def spelling (t : Text) : List Char := t.flatMap Piece.spelling

/-- The code units of the string. -/
def units (t : Text) : List Nat := t.flatMap Piece.units

/-- Nothing is escaped: the string is what is written. -/
def EscapeFree (t : Text) : Prop := ∀ p ∈ t, p.isPlain = true

instance (t : Text) : Decidable t.EscapeFree :=
  inferInstanceAs (Decidable (∀ p ∈ t, p.isPlain = true))

/-- The string with its quotes. -/
def quoted (t : Text) : List Char := '"' :: (t.spelling ++ ['"'])

/-- A text without escapes; the characters that need one are left out. -/
def ofChars (cs : List Char) : Text :=
  cs.filterMap fun c =>
    if h : 0x20 ≤ c.toNat ∧ c ≠ '"' ∧ c ≠ '\\' then some (.plain ⟨c, h.1, h.2.1, h.2.2⟩) else none

@[simp] theorem spelling_nil : spelling [] = [] := rfl

@[simp] theorem spelling_cons (p : Piece) (t : Text) :
    spelling (p :: t) = p.spelling ++ t.spelling := rfl

end Text

/-! ### Numbers and literals -/

def digits (ds : List (Fin 10)) : List Char := ds.map fun d => Char.ofNat (48 + d.val)

/-- The exponent of a number: `e` or `E`, an optional sign, and digits. -/
structure Exponent where
  upper : Bool
  /-- `true` for a minus sign. -/
  sign : Option Bool
  digits : List (Fin 10)
  digits_ne_nil : digits ≠ []

/-- A number: no leading zero, and a digit on each side of the point. -/
structure Number where
  negative : Bool
  whole : List (Fin 10)
  fraction : Option (List (Fin 10))
  exponent : Option Exponent
  whole_ne_nil : whole ≠ []
  no_leading_zero : whole.head? = some 0 → whole = [0]
  fraction_ne_nil : fraction ≠ some []

def Exponent.spelling (e : Exponent) : List Char :=
  (if e.upper then 'E' else 'e') ::
    ((match e.sign with
      | none => []
      | some true => ['-']
      | some false => ['+']) ++ Json.digits e.digits)

def Number.spelling (n : Number) : List Char :=
  (if n.negative then ['-'] else []) ++ digits n.whole ++
    (match n.fraction with
      | none => []
      | some ds => '.' :: digits ds) ++
    (match n.exponent with
      | none => []
      | some e => e.spelling)

inductive Literal
  | null
  | true
  | false
  deriving DecidableEq, Repr

def Literal.spelling : Literal → List Char
  | .null => ['n', 'u', 'l', 'l']
  | .true => ['t', 'r', 'u', 'e']
  | .false => ['f', 'a', 'l', 's', 'e']

/-! ### Values -/

mutual

/-- A value. The whitespace of an empty array or object is its `inner` one. -/
inductive Value
  | literal (l : Literal)
  | number (n : Number)
  | string (t : Text)
  | array (inner : List Blank) (items : Items)
  | object (inner : List Blank) (members : Members)

/-- The values of an array, each with the whitespace around it. -/
inductive Items
  | nil
  | cons (before : List Blank) (value : Value) (after : List Blank) (rest : Items)

/-- The members of an object, each with the whitespace around its name and its value. -/
inductive Members
  | nil
  | cons (before : List Blank) (name : Text) (beforeColon afterColon : List Blank) (value : Value)
      (after : List Blank) (rest : Members)

end

mutual

/-- The text of a value. -/
def Value.spelling : Value → List Char
  | .literal l => l.spelling
  | .number n => n.spelling
  | .string t => t.quoted
  | .array inner items => '[' :: (blanks inner ++ (items.spelling [] ++ [']']))
  | .object inner members => '\x7b' :: (blanks inner ++ (members.spelling [] ++ ['\x7d']))

/-- The text of the items, the first after `separator` and the others after a comma. -/
def Items.spelling (separator : List Char) : Items → List Char
  | .nil => []
  | .cons before value after rest =>
      separator ++ (blanks before ++ (value.spelling ++ (blanks after ++ rest.spelling [','])))

/-- The text of the members, the first after `separator` and the others after a comma. -/
def Members.spelling (separator : List Char) : Members → List Char
  | .nil => []
  | .cons before name beforeColon afterColon value after rest =>
      separator ++ (blanks before ++ (name.quoted ++ (blanks beforeColon ++ (':' ::
        (blanks afterColon ++ (value.spelling ++ (blanks after ++ rest.spelling [','])))))))

end

/-! ### Members at every depth -/

/-- A member as it is written, without the whitespace around it. -/
structure Member where
  name : Text
  beforeColon : List Blank
  afterColon : List Blank
  value : Value

/-- The members of an object itself. -/
def Members.toList : Members → List Member
  | .nil => []
  | .cons _ name beforeColon afterColon value _ rest =>
      ⟨name, beforeColon, afterColon, value⟩ :: rest.toList

mutual

/-- All members within a value, in the order of the text. -/
def Value.allMembers : Value → List Member
  | .literal _ | .number _ | .string _ => []
  | .array _ items => items.allMembers
  | .object _ members => members.allMembers

def Items.allMembers : Items → List Member
  | .nil => []
  | .cons _ value _ rest => value.allMembers ++ rest.allMembers

def Members.allMembers : Members → List Member
  | .nil => []
  | .cons _ name beforeColon afterColon value _ rest =>
      ⟨name, beforeColon, afterColon, value⟩ :: (value.allMembers ++ rest.allMembers)

end

/-! ### Quotes

A quote in a text is the end of a string, or escaped. -/

theorem quote_notMem_blanks (bs : List Blank) : '"' ∉ blanks bs := by
  intro h
  obtain ⟨b, -, hb⟩ := List.mem_map.mp h
  cases b <;> exact absurd hb (by decide)

theorem HexDigit.char_ne_quote (d : HexDigit) : '"' ≠ d.char := by
  have hall : ∀ (value : Fin 16) (upper : Bool), '"' ≠ HexDigit.char ⟨value, upper⟩ := by decide
  exact hall d.value d.upper

theorem Piece.quote_notMem {p : Piece} (h : p ≠ .escape .quote) : '"' ∉ p.spelling := by
  cases p with
  | plain c => simpa [spelling] using Ne.symm c.ne_quote
  | escape e =>
      cases e with
      | quote => exact absurd rfl h
      | backslash => decide
      | slash => decide
      | backspace => decide
      | formFeed => decide
      | lineFeed => decide
      | carriageReturn => decide
      | tab => decide
  | unicode a b c d => simp [spelling, HexDigit.char_ne_quote]

theorem Literal.quote_notMem (l : Literal) : '"' ∉ l.spelling := by
  cases l <;> decide

theorem quote_notMem_digits (ds : List (Fin 10)) : '"' ∉ digits ds := by
  have hall : ∀ d : Fin 10, Char.ofNat (48 + d.val) ≠ '"' := by decide
  intro h
  obtain ⟨d, -, hd⟩ := List.mem_map.mp h
  exact hall d hd

theorem Exponent.quote_notMem (e : Exponent) : '"' ∉ e.spelling := by
  have hdigits := quote_notMem_digits e.digits
  unfold spelling
  rcases e.sign with _ | _ | _ <;> cases e.upper <;> simp [hdigits]

theorem Number.quote_notMem (n : Number) : '"' ∉ n.spelling := by
  have hwhole := quote_notMem_digits n.whole
  have hfraction : '"' ∉ (match n.fraction with
      | none => []
      | some ds => '.' :: digits ds) := by
    cases n.fraction with
    | none => exact List.not_mem_nil
    | some ds => simp [quote_notMem_digits ds]
  have hexponent : '"' ∉ (match n.exponent with
      | none => []
      | some e => e.spelling) := by
    cases n.exponent with
    | none => exact List.not_mem_nil
    | some e => exact e.quote_notMem
  have hsign : '"' ∉ (if n.negative then ['-'] else []) := by
    cases n.negative <;> decide
  simp only [spelling, List.mem_append, not_or]
  exact ⟨⟨⟨hsign, hwhole⟩, hfraction⟩, hexponent⟩

theorem Number.spelling_ne_nil (n : Number) : n.spelling ≠ [] := by
  have hwhole : digits n.whole ≠ [] := fun h => n.whole_ne_nil (List.map_eq_nil_iff.mp h)
  simp [spelling, hwhole]

/-- A text that is an object, with whitespace around it. -/
structure ObjectDocument where
  before : List Blank
  inner : List Blank
  members : Members
  after : List Blank

def ObjectDocument.spelling (doc : ObjectDocument) : List Char :=
  blanks doc.before ++ ((Value.object doc.inner doc.members).spelling ++ blanks doc.after)

end Json
