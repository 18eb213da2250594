/-
JSON texts with their layout.  A document keeps every blank between its tokens
and the spelling of every string, so that it renders to exactly one text; the
value it stands for forgets both.
-/
import LivoxScripts.Text.Regex

namespace JsonText

open TextTools (Text)

/-- The four blanks JSON allows between tokens. -/
inductive Blank where
  | space
  | tab
  | newline
  | carriageReturn
deriving DecidableEq, Repr

def Blank.char : Blank → Char
  | space => ' '
  | tab => '\t'
  | newline => '\n'
  | carriageReturn => '\r'

def blankText (blanks : List Blank) : Text := blanks.map Blank.char

/-- A character that stands for itself inside a string. -/
def isPlain (c : Char) : Bool := decide (0x20 ≤ c.toNat) && c != '"' && c != '\\'

/-- The letters of the two-character escapes. -/
def isEscape (c : Char) : Bool := "\"\\/bfnrt".toList.contains c

def isHex (c : Char) : Bool := "0123456789abcdefABCDEF".toList.contains c

/-- One character or escape of a string, as it is written. -/
inductive StrItem where
  | plain (c : { c : Char // isPlain c = true })
  | escape (c : { c : Char // isEscape c = true })
  | unicode (d₁ d₂ d₃ d₄ : { c : Char // isHex c = true })
deriving DecidableEq

abbrev JString := List StrItem

def StrItem.text : StrItem → Text
  | plain c => [c.1]
  | escape c => ['\\', c.1]
  | unicode d₁ d₂ d₃ d₄ => ['\\', 'u', d₁.1, d₂.1, d₃.1, d₄.1]

/-- A string without its quotes, as it is written. -/
def raw (s : JString) : Text := s.flatMap StrItem.text

def quoted (s : JString) : Text := '"' :: (raw s ++ ['"'])

/-- The UTF-16 code units of a character. -/
def charUnits (c : Char) : List Nat :=
  if c.toNat < 0x10000 then [c.toNat]
  else [0xD800 + (c.toNat - 0x10000) / 0x400, 0xDC00 + (c.toNat - 0x10000) % 0x400]

def textUnits (t : Text) : List Nat := t.flatMap charUnits

def escapeUnit : Char → Nat
  | 'b' => 0x08
  | 'f' => 0x0C
  | 'n' => 0x0A
  | 'r' => 0x0D
  | 't' => 0x09
  | c => c.toNat

def hexValue (c : Char) : Nat :=
  if c.toNat ≤ '9'.toNat then c.toNat - '0'.toNat
  else if c.toNat ≤ 'F'.toNat then c.toNat - 'A'.toNat + 10
  else c.toNat - 'a'.toNat + 10

def StrItem.units : StrItem → List Nat
  | plain c => charUnits c.1
  | escape c => [escapeUnit c.1]
  | unicode d₁ d₂ d₃ d₄ =>
      [((hexValue d₁.1 * 16 + hexValue d₂.1) * 16 + hexValue d₃.1) * 16 +
        hexValue d₄.1]

/-- The string a spelling stands for, as UTF-16 code units. -/
def units (s : JString) : List Nat := s.flatMap StrItem.units

/-- Written without escapes. -/
def Bare (s : JString) : Prop := ∀ item ∈ s, ∃ c, item = .plain c

def isNumberChar (c : Char) : Bool := c.isDigit || "+-.eE".toList.contains c

/-- What follows the integer part of a number. -/
def isNumberTail (t : Text) : Bool :=
  let exponent : Text → Bool
    | [] => true
    | e :: t =>
        (e == 'e' || e == 'E') &&
          match t with
          | '+' :: ds => !ds.isEmpty && ds.all Char.isDigit
          | '-' :: ds => !ds.isEmpty && ds.all Char.isDigit
          | ds => !ds.isEmpty && ds.all Char.isDigit
  match t with
  | '.' :: t =>
      !(t.takeWhile Char.isDigit).isEmpty && exponent (t.dropWhile Char.isDigit)
  | t => exponent t

/-- The numbers of the JSON grammar. -/
def isNumber (t : Text) : Bool :=
  t.all isNumberChar &&
    match (if t.head? = some '-' then t.tail else t) with
    | [] => false
    | '0' :: t => isNumberTail t
    | d :: t => d.isDigit && isNumberTail (t.dropWhile Char.isDigit)

/-- What stands before the value of a member: the key between blanks, and the
blanks around the colon. -/
structure KeyHead where
  pre : List Blank
  key : JString
  mid : List Blank
  gap : List Blank
deriving DecidableEq

mutual

/-- A value with its layout. -/
inductive Value where
  | null
  | bool (b : Bool)
  | num (n : { t : Text // isNumber t = true })
  | str (s : JString)
  | emptyArr (blanks : List Blank)
  | arr (elems : Elems)
  | emptyObj (blanks : List Blank)
  | obj (members : Members)

/-- The elements of an array, separated by commas. -/
inductive Elems where
  | last (pre : List Blank) (v : Value) (post : List Blank)
  | more (pre : List Blank) (v : Value) (post : List Blank) (rest : Elems)

/-- The members of an object, separated by commas. -/
inductive Members where
  | last (head : KeyHead) (v : Value) (post : List Blank)
  | more (head : KeyHead) (v : Value) (post : List Blank) (rest : Members)

end

/-- From the key to just before the value. -/
def KeyHead.text (head : KeyHead) : Text :=
  quoted head.key ++ (blankText head.mid ++ ':' :: blankText head.gap)

mutual

def Value.text : Value → Text
  | .null => "null".toList
  | .bool true => "true".toList
  | .bool false => "false".toList
  | .num n => n.1
  | .str s => quoted s
  | .emptyArr blanks => '[' :: (blankText blanks ++ [']'])
  | .arr elems => '[' :: (elems.text ++ [']'])
  | .emptyObj blanks => '{' :: (blankText blanks ++ ['}'])
  | .obj members => '{' :: (members.text ++ ['}'])

def Elems.text : Elems → Text
  | .last pre v post => blankText pre ++ (v.text ++ blankText post)
  | .more pre v post rest =>
      blankText pre ++ (v.text ++ (blankText post ++ ',' :: rest.text))

def Members.text : Members → Text
  | .last head v post =>
      blankText head.pre ++ (head.text ++ (v.text ++ blankText post))
  | .more head v post rest =>
      blankText head.pre ++
        (head.text ++ (v.text ++ (blankText post ++ ',' :: rest.text)))

end

/-- A whole text. -/
structure Document where
  pre : List Blank
  value : Value
  post : List Blank

def Document.text (doc : Document) : Text :=
  blankText doc.pre ++ (doc.value.text ++ blankText doc.post)

/-- A member of an object, wherever it stands. -/
structure Field where
  head : KeyHead
  value : Value

mutual

/-- All members of all objects inside a value, in the order of the text. -/
def Value.fields : Value → List Field
  | .arr elems => elems.fields
  | .obj members => members.fields
  | _ => []

def Elems.fields : Elems → List Field
  | .last _ v _ => v.fields
  | .more _ v _ rest => v.fields ++ rest.fields

def Members.fields : Members → List Field
  | .last head v _ => ⟨head, v⟩ :: v.fields
  | .more head v _ rest => ⟨head, v⟩ :: (v.fields ++ rest.fields)

end

def Elems.toList : Elems → List Value
  | .last _ v _ => [v]
  | .more _ v _ rest => v :: rest.toList

def Members.toList : Members → List Field
  | .last head v _ => [⟨head, v⟩]
  | .more head v _ rest => ⟨head, v⟩ :: rest.toList

/-- The elements of an array; nothing for other values. -/
def Value.elements : Value → List Value
  | .arr elems => elems.toList
  | _ => []

/-- The direct members of an object; nothing for other values. -/
def Value.members : Value → List Field
  | .obj members => members.toList
  | _ => []

/-- The key of a member is this text. -/
def Field.Named (name : Text) (field : Field) : Prop :=
  units field.head.key = textUnits name

instance (name : Text) : DecidablePred (Field.Named name) := fun field =>
  inferInstanceAs (Decidable (units field.head.key = textUnits name))

/-- The values of the direct members of an object with this key. -/
def Value.lookup (name : Text) (v : Value) : List Value :=
  (v.members.filter (Field.Named name ·)).map Field.value

/-- The values of all members with this key, wherever they stand. -/
def Value.fieldsNamed (name : Text) (v : Value) : List Value :=
  (v.fields.filter (Field.Named name ·)).map Field.value

/-- The string a value stands for, if it is one. -/
def Value.stringUnits : Value → Option (List Nat)
  | .str s => some (units s)
  | _ => none

/-- Values without layout.  `hidden` stands for a value that is not looked
at. -/
inductive Json where
  | null
  | bool (b : Bool)
  | num (n : Text)
  | str (s : List Nat)
  | arr (elems : List Json)
  | obj (members : List (List Nat × Json))
  | hidden

/-- What a member contributes to the value of its object. -/
def member (hide : List Text) (key : JString) (value : Json) : List Nat × Json :=
  (units key, if units key ∈ hide.map textUnits then .hidden else value)

mutual

/-- The value of a text, not looking at members with one of the given keys. -/
def Value.denote (hide : List Text) : Value → Json
  | .null => .null
  | .bool b => .bool b
  | .num n => .num n.1
  | .str s => .str (units s)
  | .emptyArr _ => .arr []
  | .arr elems => .arr (elems.denote hide)
  | .emptyObj _ => .obj []
  | .obj members => .obj (members.denote hide)

def Elems.denote (hide : List Text) : Elems → List Json
  | .last _ v _ => [v.denote hide]
  | .more _ v _ rest => v.denote hide :: rest.denote hide

def Members.denote (hide : List Text) : Members → List (List Nat × Json)
  | .last head v _ => [member hide head.key (v.denote hide)]
  | .more head v _ rest =>
      member hide head.key (v.denote hide) :: rest.denote hide

end

/-- The two documents differ at most in the values under the given keys. -/
def Document.AgreeOutside (hide : List Text) (doc doc' : Document) : Prop :=
  doc.value.denote hide = doc'.value.denote hide

end JsonText
