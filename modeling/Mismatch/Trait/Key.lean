import Mismatch.Trait.Basic

/-!
# Keys of goals

The text under which the answer to a goal is remembered and by which a repeated goal is recognised.
Items are written in full and inference variables by kind and number, whatever their display text.
-/

namespace Mismatch

/-- The number that stands for a kind of inference variable in a key. -/
def InferKind.code : InferKind → Nat
  | .int => 0
  | .float => 1
  | .general => 2

namespace Ty

mutual

/-- The key of a type with `rest` after it. -/
def keyOnto : (t : Ty) → (rest : Text) → Text
  | .missing, rest => "<null>" ++ rest
  | .num k, rest => k.name ++ rest
  | .prim k, rest => k.name ++ rest
  | .ref .immutable t, rest => "&" ++ keyOnto t rest
  | .ref .mutable t, rest => "&mut " ++ keyOnto t rest
  | .adt i [], rest => i.qualified ++ rest
  | .adt i (t :: ts), rest => i.qualified ++ ("<" ++ keyListOnto (t :: ts) (">" ++ rest))
  | .tuple ts, rest => "(" ++ keyEachOnto ts (")" ++ rest)
  | .slice t, rest => "[" ++ keyOnto t ("]" ++ rest)
  | .param a, rest => "$" ++ (a ++ rest)
  | .infer k i _, rest => "?" ++ (Text.ofNat k.code ++ ("." ++ (Text.ofNat i.toNat ++ rest)))
  | .unknown, rest => "\x7bunknown\x7d" ++ rest
  | .anon d, rest => "\x7banon " ++ (d ++ ("\x7d" ++ rest))

/-- The keys of several types with commas between them and `rest` after them. -/
def keyListOnto : (ts : List Ty) → (rest : Text) → Text
  | [], rest => rest
  | [t], rest => keyOnto t rest
  | t :: u :: ts, rest => keyOnto t ("," ++ keyListOnto (u :: ts) rest)

/-- The keys of several types with a comma after each and `rest` after them. -/
def keyEachOnto : (ts : List Ty) → (rest : Text) → Text
  | [], rest => rest
  | t :: ts, rest => keyOnto t ("," ++ keyEachOnto ts rest)

end

/-- The key of a type. -/
def key (t : Ty) : Text := keyOnto t []

/-- The keys of several types with commas between them. -/
def keyList (ts : List Ty) : Text := keyListOnto ts []

/-- The keys of several types with a comma after each. -/
def keyEach (ts : List Ty) : Text := keyEachOnto ts []

mutual

theorem keyOnto_eq : ∀ (t : Ty) (rest : Text), keyOnto t rest = key t ++ rest
  | .missing, _ | .num _, _ | .prim _, _ | .param _, _ | .infer .., _ | .unknown, _
  | .anon _, _ => by simp [key, keyOnto]
  | .ref .immutable t, rest | .ref .mutable t, rest => by
    simp [key, keyOnto, keyOnto_eq t rest]
  | .adt _ [], _ => by simp [key, keyOnto]
  | .adt _ (t :: ts), rest => by
    simp [key, keyOnto, keyListOnto_eq (t :: ts) (_ ++ rest),
      keyListOnto_eq (t :: ts) (Text.ofString ">")]
  | .tuple ts, rest => by
    simp [key, keyOnto, keyEachOnto_eq ts (_ ++ rest), keyEachOnto_eq ts (Text.ofString ")")]
  | .slice t, rest => by
    simp [key, keyOnto, keyOnto_eq t (_ ++ rest), keyOnto_eq t (Text.ofString "]")]

theorem keyListOnto_eq : ∀ (ts : List Ty) (rest : Text), keyListOnto ts rest = keyList ts ++ rest
  | [], _ => by simp [keyList, keyListOnto]
  | [t], rest => by simp [keyList, keyListOnto, keyOnto_eq t rest, key]
  | t :: u :: ts, rest => by
    simp [keyList, keyListOnto, keyListOnto_eq (u :: ts) rest, keyOnto_eq t (_ ++ _)]

theorem keyEachOnto_eq : ∀ (ts : List Ty) (rest : Text), keyEachOnto ts rest = keyEach ts ++ rest
  | [], _ => by simp [keyEach, keyEachOnto]
  | t :: ts, rest => by
    simp [keyEach, keyEachOnto, keyEachOnto_eq ts rest, keyOnto_eq t (_ ++ _)]

end

end Ty

/-- The text of the key of a goal. -/
def Goal.keyText (g : Goal) : Text :=
  g.self.keyOnto (": " ++ (g.trait.qualified ++
    match g.args with
    | [] => []
    | t :: ts => "<" ++ Ty.keyListOnto (t :: ts) ">"))

/-- The length of the key of a goal. -/
@[noinline]
def Goal.keySize (g : Goal) : Nat := g.keyText.length

/-- A key. It carries its length, so that keys of different lengths are told apart at once; the text
is only written out for a key of the same length or for a report. -/
structure Key where
  size : Nat
  text : Thunk Text

namespace Key

theorem ext_get {a b : Key} (hs : a.size = b.size) (ht : a.text.get = b.text.get) : a = b := by
  obtain ⟨m, f⟩ := a
  obtain ⟨n, g⟩ := b
  obtain rfl : m = n := hs
  obtain rfl : f = g := by
    obtain ⟨f⟩ := f
    obtain ⟨g⟩ := g
    congr 1
    exact funext fun _ => ht
  rfl

instance : DecidableEq Key := fun a b =>
  if hs : a.size = b.size then
    if ht : a.text.get = b.text.get then isTrue (ext_get hs ht)
    else isFalse fun h => ht (by rw [h])
  else isFalse fun h => hs (by rw [h])

end Key

/-- The key of a goal. -/
def Goal.key (g : Goal) : Key := ⟨g.keySize, g.keyText⟩

end Mismatch
