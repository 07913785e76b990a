import Mismatch.Proofs.Words
import Mismatch.Text.Json
import Mathlib.Algebra.Order.Field.Rat

/-!
# The grammar of JSON texts

The grammar of RFC 8259 as a relation between the text that a reader has in front of it, the value
that stands there and the text that is left behind it. The texts of strings and names are read as
bytes: a byte from 0x80 up is a character of its own, and an escaped code point stands for its bytes
in UTF-8. Members of objects are kept in their order, names that occur again included. A text has
one value at most (`IsText.unique`).
-/

namespace Mismatch.Text.Json

/-- The values of JSON texts. -/
inductive Value where
  | null
  | bool (b : Bool)
  | number (n : Rat)
  | string (t : Text)
  | array (xs : List Value)
  | object (members : List (Text × Value))

/-- A member whose value is a string. -/
def entry (name t : Text) : Text × Value := (name, .string t)

theorem entry_injective (name : Text) : Function.Injective (entry name) := fun s t h => by
  simpa [entry] using h

/-- The white space between tokens. -/
def isBlank (b : UInt8) : Bool := b == 32 || b == 9 || b == 10 || b == 13

/-- The token `t` stands at the front of `u`, white space aside, and `v` is left behind it. -/
def Token (t u v : Text) : Prop := u.dropWhile isBlank = t ++ v

/-! ## Numbers -/

/-- The bytes that numbers are made of. -/
def isNumberByte (b : UInt8) : Bool :=
  isDigit b || b == byte '-' || b == byte '+' || b == byte '.' || b == byte 'e' || b == byte 'E'

/-- The digits before the point, without leading zeros, and what is left behind them. -/
def int? (w : Text) : Option (Rat × Text) :=
  match w.takeWhile isDigit with
  | [] => none
  | d :: ds =>
    if d == byte '0' && !ds.isEmpty then none
    else some ((digits (d :: ds) : Nat), w.dropWhile isDigit)

/-- The point and the digits behind it, if there is a point. -/
def frac? (w : Text) : Option (Rat × Text) :=
  match dropStart? "." w with
  | none => some (0, w)
  | some w =>
    match w.takeWhile isDigit with
    | [] => none
    | ds => some ((digits ds : Nat) / 10 ^ ds.length, w.dropWhile isDigit)

/-- Nothing but digits, and at least one. -/
def digits? (w : Text) : Option Nat :=
  if w.isEmpty || !w.all isDigit then none else some (digits w)

/-- The exponent at the end, if there is one. -/
def exp? : Text → Option Int
  | [] => some 0
  | e :: w =>
    if e == byte 'e' || e == byte 'E' then
      match dropStart? "-" w with
      | some w => (digits? w).map fun n => -(n : Int)
      | none => (digits? ((dropStart? "+" w).getD w)).map fun n => (n : Int)
    else none

/-- A number without its sign. -/
def magnitude? (w : Text) : Option Rat := do
  let (n, w) ← int? w
  let (f, w) ← frac? w
  let e ← exp? w
  return (n + f) * 10 ^ e

def number? (w : Text) : Option Rat :=
  match dropStart? "-" w with
  | none => magnitude? w
  | some w => (magnitude? w).map (- ·)

/-! ## Strings -/

/-- What stands behind the reverse solidus in escapes of two characters, and what it stands for. -/
def shortEscaped : List (UInt8 × UInt8) :=
  [(byte '"', byte '"'), (byte '\\', byte '\\'), (byte '/', byte '/'), (byte 'b', 8),
    (byte 'f', 12), (byte 'n', 10), (byte 'r', 13), (byte 't', 9)]

def hexValue? (b : UInt8) : Option Nat :=
  if isDigit b then some (b - byte '0').toNat
  else if byte 'a' ≤ b && b ≤ byte 'f' then some ((b - byte 'a').toNat + 10)
  else if byte 'A' ≤ b && b ≤ byte 'F' then some ((b - byte 'A').toNat + 10)
  else none

/-- Four hexadecimal digits, and what is left behind them. -/
def unit? : Text → Option (Nat × Text)
  | a :: b :: c :: d :: u => do
    let a ← hexValue? a
    let b ← hexValue? b
    let c ← hexValue? c
    let d ← hexValue? d
    return (((a * 16 + b) * 16 + c) * 16 + d, u)
  | _ => none

/-- The bytes of a code point in UTF-8. -/
def utf8 (n : Nat) : Text := String.utf8EncodeChar (Char.ofNat n)

/-- The code point behind `\u`, in one unit or in a surrogate pair. A surrogate on its own stands
for no character. -/
def codePoint? (u : Text) : Option (Text × Text) := do
  let (n, u) ← unit? u
  if n < 0xd800 || 0xe000 ≤ n then return (utf8 n, u)
  let u ← dropStart? "\\u" u
  let (m, u) ← unit? u
  if n < 0xdc00 && 0xdc00 ≤ m && m < 0xe000 then
    return (utf8 (0x10000 + (n - 0xd800) * 0x400 + (m - 0xdc00)), u)
  else none

/-- The character at the front of the inside of a string, and what is left behind it. The quotation
mark, the reverse solidus and control characters stand there in escapes only. -/
def character? : Text → Option (Text × Text)
  | [] => none
  | b :: u =>
    if b == byte '"' || b < 0x20 then none
    else if b == byte '\\' then
      match u with
      | [] => none
      | e :: u =>
        if e == byte 'u' then codePoint? u
        else (shortEscaped.lookup e).map fun c => ([c], u)
    else some ([b], u)

/-- Characters up to the closing quotation mark. -/
inductive Chars : (u s v : Text) → Prop
  | done {v : Text} : Chars (byte '"' :: v) [] v
  | more {u u₁ d s v : Text} (char : character? u = some (d, u₁)) (rest : Chars u₁ s v) :
      Chars u (d ++ s) v

/-- The string `s` stands at the front of `u` and `v` is left behind it. -/
def Quoted (s u v : Text) : Prop := ∃ u₁, Token "\"" u u₁ ∧ Chars u₁ s v

/-! ## Values -/

mutual

/-- The value `x` stands at the front of `u` and `v` is left behind it. -/
inductive Reads : (u : Text) → Value → (v : Text) → Prop
  | null {u v : Text} (word : Token "null" u v) : Reads u .null v
  | false {u v : Text} (word : Token "false" u v) : Reads u (.bool .false) v
  | true {u v : Text} (word : Token "true" u v) : Reads u (.bool .true) v
  | number {u v w : Text} {n : Rat} (token : Token w u v) (value : number? w = some n)
      (bytes : ∀ b ∈ w, isNumberByte b = .true) (whole : v.takeWhile isNumberByte = []) :
      Reads u (.number n) v
  | string {u v s : Text} (quoted : Quoted s u v) : Reads u (.string s) v
  | noElements {u u₁ v : Text} (left : Token "[" u u₁) (right : Token "]" u₁ v) :
      Reads u (.array []) v
  | array {u u₁ u₂ v : Text} {xs : List Value} (left : Token "[" u u₁)
      (elems : ReadsAll u₁ xs u₂) (right : Token "]" u₂ v) : Reads u (.array xs) v
  | noMembers {u u₁ v : Text} (left : Token "\x7b" u u₁) (right : Token "\x7d" u₁ v) :
      Reads u (.object []) v
  | object {u u₁ u₂ v : Text} {ms : List (Text × Value)} (left : Token "\x7b" u u₁)
      (members : ReadsMembers u₁ ms u₂) (right : Token "\x7d" u₂ v) : Reads u (.object ms) v

/-- One value or several, with commas between them. -/
inductive ReadsAll : (u : Text) → List Value → (v : Text) → Prop
  | one {u v : Text} {x : Value} (elem : Reads u x v) : ReadsAll u [x] v
  | more {u u₁ u₂ v : Text} {x : Value} {xs : List Value} (elem : Reads u x u₁)
      (comma : Token "," u₁ u₂) (rest : ReadsAll u₂ xs v) : ReadsAll u (x :: xs) v

/-- A name and its value, with a colon between them. -/
inductive ReadsMember : (u : Text) → Text × Value → (v : Text) → Prop
  | mk {u u₁ u₂ v s : Text} {x : Value} (name : Quoted s u u₁) (colon : Token ":" u₁ u₂)
      (value : Reads u₂ x v) : ReadsMember u (s, x) v

/-- One member or several, with commas between them. -/
inductive ReadsMembers : (u : Text) → List (Text × Value) → (v : Text) → Prop
  | one {u v : Text} {m : Text × Value} (member : ReadsMember u m v) : ReadsMembers u [m] v
  | more {u u₁ u₂ v : Text} {m : Text × Value} {ms : List (Text × Value)}
      (member : ReadsMember u m u₁) (comma : Token "," u₁ u₂) (rest : ReadsMembers u₂ ms v) :
      ReadsMembers u (m :: ms) v

end

/-- The text is a JSON text with the value `x`: nothing but white space stands around it. -/
def IsText (u : Text) (x : Value) : Prop := ∃ v, Reads u x v ∧ v.dropWhile isBlank = []

/-! ## A text has one value -/

section
variable {s s' t u v v' : Text} {x y : Value}

theorem Token.append_eq (h : Token t u v) (h' : Token s u v') : t ++ v = s ++ v' :=
  h.symm.trans h'

theorem Token.rest_eq (h : Token t u v) (h' : Token t u v') : v = v' :=
  List.append_cancel_left (h.append_eq h')

/-- No further element or member comes. -/
def NoComma (u : Text) : Prop := ∀ v, ¬ Token "," u v

theorem Token.noComma {b : UInt8} (h : Token (b :: t) u v) (hb : b ≠ byte ',') :
    NoComma u :=
  fun _ h' => hb (List.cons.inj (h.append_eq h')).1

theorem Chars.det (h : Chars u s v) (h' : Chars u s' v') : s = s' ∧ v = v' := by
  induction h generalizing s' with
  | done =>
    cases h' with
    | done => exact ⟨rfl, rfl⟩
    | more char => cases char
  | more char _ ih =>
    cases h' with
    | done => cases char
    | more char' rest' =>
      obtain ⟨rfl, rfl⟩ := Prod.mk.inj (Option.some.inj (char.symm.trans char'))
      obtain ⟨rfl, rfl⟩ := ih rest'
      exact ⟨rfl, rfl⟩

theorem Quoted.det (h : Quoted s u v) (h' : Quoted s' u v') : s = s' ∧ v = v' := by
  obtain ⟨u₁, hq, hc⟩ := h
  obtain ⟨u₂, hq', hc'⟩ := h'
  obtain rfl := hq.rest_eq hq'
  exact hc.det hc'

/-- The forms of values that their first bytes tell apart. -/
inductive Form where
  | null | false | true | number | string | array | object

def Value.form : Value → Form
  | .null => .null
  | .bool .false => .false
  | .bool .true => .true
  | .number _ => .number
  | .string _ => .string
  | .array _ => .array
  | .object _ => .object

/-- The form of the values that start with the byte. -/
def formOf? (b : UInt8) : Option Form :=
  if isNumberByte b then some .number
  else [(byte 'n', .null), (byte 'f', .false), (byte 't', .true), (byte '"', .string),
    (byte '[', .array), (0x7b, .object)].lookup b

theorem Reads.form (h : Reads u x v) :
    (u.dropWhile isBlank).head?.bind formOf? = some x.form := by
  cases h with
  | null h | false h | true h | noElements h | array h | noMembers h | object h => rw [h]; rfl
  | string h =>
    obtain ⟨u₁, hq, -⟩ := h
    rw [hq]
    rfl
  | @number _ _ w _ token value bytes =>
    rw [token]
    cases w with
    | nil => cases value
    | cons b w => simp [formOf?, bytes b List.mem_cons_self, Value.form]

theorem Reads.form_eq (h : Reads u x v) (h' : Reads u y v') : x.form = y.form :=
  Option.some.inj (h.form.symm.trans h'.form)

theorem Reads.not_token {b : UInt8} (h : Reads u x v) (hb : formOf? b = none) :
    ¬ Token (b :: t) u v' := by
  intro hu
  have hf := h.form
  rw [hu] at hf
  exact nomatch hf.symm.trans hb

theorem ReadsAll.not_token {xs : List Value} {b : UInt8} (h : ReadsAll u xs v)
    (hb : formOf? b = none) : ¬ Token (b :: t) u v' := by
  cases h with
  | one h | more h => exact h.not_token hb

theorem Quoted.not_token {b : UInt8} (h : Quoted s u v) (hb : b ≠ byte '"') :
    ¬ Token (b :: t) u v' := by
  obtain ⟨u₁, hq, -⟩ := h
  exact fun hu => hb (List.cons.inj (hu.append_eq hq)).1

theorem ReadsMembers.not_token {ms : List (Text × Value)} {b : UInt8} (h : ReadsMembers u ms v)
    (hb : b ≠ byte '"') : ¬ Token (b :: t) u v' := by
  cases h with
  | one h | more h =>
    cases h with
    | mk name => exact name.not_token hb

end

mutual

theorem Reads.det : ∀ {u v v' : Text} {x y : Value},
    Reads u x v → Reads u y v' → x = y ∧ v = v'
  | _, _, _, _, _, .null word, h' => by
    have hf := Reads.form_eq (.null word) h'
    cases h' with
    | null word' => exact ⟨rfl, word.rest_eq word'⟩
    | _ => cases hf
  | _, _, _, _, _, .false word, h' => by
    have hf := Reads.form_eq (.false word) h'
    cases h' with
    | false word' => exact ⟨rfl, word.rest_eq word'⟩
    | _ => cases hf
  | _, _, _, _, _, .true word, h' => by
    have hf := Reads.form_eq (.true word) h'
    cases h' with
    | true word' => exact ⟨rfl, word.rest_eq word'⟩
    | _ => cases hf
  | _, _, _, _, _, .number token value bytes whole, h' => by
    have hf := Reads.form_eq (.number token value bytes whole) h'
    cases h' with
    | number token' value' bytes' whole' =>
      obtain ⟨rfl, rfl⟩ :=
        append_inj_of_takeWhile bytes bytes' whole whole' (token.append_eq token')
      obtain rfl := Option.some.inj (value.symm.trans value')
      exact ⟨rfl, rfl⟩
    | _ => cases hf
  | _, _, _, _, _, .string quoted, h' => by
    have hf := Reads.form_eq (.string quoted) h'
    cases h' with
    | string quoted' =>
      obtain ⟨rfl, rfl⟩ := quoted.det quoted'
      exact ⟨rfl, rfl⟩
    | _ => cases hf
  | _, _, _, _, _, .noElements left right, h' => by
    have hf := Reads.form_eq (.noElements left right) h'
    cases h' with
    | noElements left' right' =>
      obtain rfl := left.rest_eq left'
      exact ⟨rfl, right.rest_eq right'⟩
    | array left' elems' =>
      obtain rfl := left.rest_eq left'
      exact absurd right (elems'.not_token rfl)
    | _ => cases hf
  | _, _, _, _, _, .array left elems right, h' => by
    have hf := Reads.form_eq (.array left elems right) h'
    cases h' with
    | noElements left' right' =>
      obtain rfl := left.rest_eq left'
      exact absurd right' (elems.not_token rfl)
    | array left' elems' right' =>
      obtain rfl := left.rest_eq left'
      obtain ⟨rfl, rfl⟩ := elems.det elems' (right.noComma (by decide))
        (right'.noComma (by decide))
      exact ⟨rfl, right.rest_eq right'⟩
    | _ => cases hf
  | _, _, _, _, _, .noMembers left right, h' => by
    have hf := Reads.form_eq (.noMembers left right) h'
    cases h' with
    | noMembers left' right' =>
      obtain rfl := left.rest_eq left'
      exact ⟨rfl, right.rest_eq right'⟩
    | object left' members' =>
      obtain rfl := left.rest_eq left'
      exact absurd right (members'.not_token (by decide))
    | _ => cases hf
  | _, _, _, _, _, .object left members right, h' => by
    have hf := Reads.form_eq (.object left members right) h'
    cases h' with
    | noMembers left' right' =>
      obtain rfl := left.rest_eq left'
      exact absurd right' (members.not_token (by decide))
    | object left' members' right' =>
      obtain rfl := left.rest_eq left'
      obtain ⟨rfl, rfl⟩ := members.det members' (right.noComma (by decide))
        (right'.noComma (by decide))
      exact ⟨rfl, right.rest_eq right'⟩
    | _ => cases hf

theorem ReadsAll.det : ∀ {u v v' : Text} {xs ys : List Value}, ReadsAll u xs v →
    ReadsAll u ys v' → NoComma v → NoComma v' → xs = ys ∧ v = v'
  | _, _, _, _, _, .one elem, h', hv, _ => by
    cases h' with
    | one elem' =>
      obtain ⟨rfl, rfl⟩ := elem.det elem'
      exact ⟨rfl, rfl⟩
    | more elem' comma' =>
      obtain ⟨rfl, rfl⟩ := elem.det elem'
      exact absurd comma' (hv _)
  | _, _, _, _, _, .more elem comma rest, h', hv, hv' => by
    cases h' with
    | one elem' =>
      obtain ⟨rfl, rfl⟩ := elem.det elem'
      exact absurd comma (hv' _)
    | more elem' comma' rest' =>
      obtain ⟨rfl, rfl⟩ := elem.det elem'
      obtain rfl := comma.rest_eq comma'
      obtain ⟨rfl, rfl⟩ := rest.det rest' hv hv'
      exact ⟨rfl, rfl⟩

theorem ReadsMember.det : ∀ {u v v' : Text} {m n : Text × Value}, ReadsMember u m v →
    ReadsMember u n v' → m = n ∧ v = v'
  | _, _, _, _, _, .mk name colon value, .mk name' colon' value' => by
    obtain ⟨rfl, rfl⟩ := name.det name'
    obtain rfl := colon.rest_eq colon'
    obtain ⟨rfl, rfl⟩ := value.det value'
    exact ⟨rfl, rfl⟩

theorem ReadsMembers.det : ∀ {u v v' : Text} {ms ns : List (Text × Value)}, ReadsMembers u ms v →
    ReadsMembers u ns v' → NoComma v → NoComma v' → ms = ns ∧ v = v'
  | _, _, _, _, _, .one member, h', hv, _ => by
    cases h' with
    | one member' =>
      obtain ⟨rfl, rfl⟩ := member.det member'
      exact ⟨rfl, rfl⟩
    | more member' comma' =>
      obtain ⟨rfl, rfl⟩ := member.det member'
      exact absurd comma' (hv _)
  | _, _, _, _, _, .more member comma rest, h', hv, hv' => by
    cases h' with
    | one member' =>
      obtain ⟨rfl, rfl⟩ := member.det member'
      exact absurd comma (hv' _)
    | more member' comma' rest' =>
      obtain ⟨rfl, rfl⟩ := member.det member'
      obtain rfl := comma.rest_eq comma'
      obtain ⟨rfl, rfl⟩ := rest.det rest' hv hv'
      exact ⟨rfl, rfl⟩

end

theorem IsText.unique {u : Text} {x y : Value} (hx : IsText u x) (hy : IsText u y) : x = y := by
  obtain ⟨v, hx, -⟩ := hx
  obtain ⟨v', hy, -⟩ := hy
  exact (hx.det hy).1

end Mismatch.Text.Json
