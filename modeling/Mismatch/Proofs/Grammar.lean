import Mismatch.Proofs.RoundTrip

/-!
# The grammar of written types

The grammar says which types stand at the front of a text and what is left behind them. Tokens may
have white space before them, words are taken whole and paths as far as they go, and inference
variables are numbered as they come.
-/

namespace Mismatch

open Text

/-! ## The grammar -/

namespace Grammar

/-- The token `t` stands at the front of `u`, white space aside, and `v` is left behind it. -/
def Token (t u v : Text) : Prop := u.dropWhile isSpace = t ++ v

/-- The token is an identifier, and not only the start of a longer one. -/
structure Word (w u v : Text) : Prop where
  token : Token w u v
  ident : isIdent w = true
  whole : v.takeWhile isIdentByte = []

/-- The further segments of a path, as many as there are, each with the `::` before it. -/
inductive Segments : (u p v : Text) → Prop
  | stop {u : Text} (noColons : ∀ v, ¬ Token "::" u v) : Segments u [] u
  | more {u u₁ u₂ v w p : Text} (colons : Token "::" u u₁) (word : Word w u₁ u₂)
      (rest : Segments u₂ p v) : Segments u ("::" ++ w ++ p) v

/-- Identifiers joined by `::`, as many as there are. -/
def Path (p u v : Text) : Prop := ∃ w q u', Word w u u' ∧ Segments u' q v ∧ p = w ++ q

mutual

/-- `Derives N u n t v m`: the type `t` stands at the front of `u` and `v` is left behind it, where
the inference variables of `t` are numbered from `n` on and `m` is the next number. -/
inductive Derives (N : NameTable) :
    (u : Text) → (n : UInt32) → Ty → (v : Text) → (m : UInt32) → Prop
  | shared {u u₁ v : Text} {n m : UInt32} {t : Ty} (amp : Token "&" u u₁)
      (noMut : ∀ u₂, ¬ Word "mut" u₁ u₂) (inner : Derives N u₁ n t v m) :
      Derives N u n (.ref .immutable t) v m
  | mutable {u u₁ u₂ v : Text} {n m : UInt32} {t : Ty} (amp : Token "&" u u₁)
      (word : Word "mut" u₁ u₂) (inner : Derives N u₂ n t v m) :
      Derives N u n (.ref .mutable t) v m
  | never {u v : Text} {n : UInt32} (bang : Token "!" u v) : Derives N u n .never v n
  | integer {u v : Text} {n : UInt32} (word : Token "\x7binteger\x7d" u v) :
      Derives N u n (.fresh .int n) v (n + 1)
  | float {u v : Text} {n : UInt32} (word : Token "\x7bfloat\x7d" u v) :
      Derives N u n (.fresh .float n) v (n + 1)
  | unknown {u v : Text} {n : UInt32} (word : Token "\x7bunknown\x7d" u v) :
      Derives N u n .unknown v n
  | slice {u u₁ u₂ v : Text} {n m : UInt32} {t : Ty} (left : Token "[" u u₁)
      (elem : Derives N u₁ n t u₂ m) (right : Token "]" u₂ v) : Derives N u n (.slice t) v m
  | unit {u u₁ v : Text} {n : UInt32} (left : Token "(" u u₁) (right : Token ")" u₁ v) :
      Derives N u n .unit v n
  | parens {u u₁ u₂ v : Text} {n m : UInt32} {t : Ty} (left : Token "(" u u₁)
      (inner : Derives N u₁ n t u₂ m) (right : Token ")" u₂ v) : Derives N u n t v m
  | tuple {u u₁ u₂ v : Text} {n m : UInt32} {ts : List Ty} (left : Token "(" u u₁)
      (elems : DerivesList N u₁ n ts u₂ m) (several : 2 ≤ ts.length) (right : Token ")" u₂ v) :
      Derives N u n (.tuple ts) v m
  | tupleComma {u u₁ u₂ u₃ v : Text} {n m : UInt32} {ts : List Ty} (left : Token "(" u u₁)
      (elems : DerivesList N u₁ n ts u₂ m) (comma : Token "," u₂ u₃) (right : Token ")" u₃ v) :
      Derives N u n (.tuple ts) v m
  | general {u v : Text} {n : UInt32} (path : Path "_" u v) :
      Derives N u n (.fresh .general n) v (n + 1)
  | num {u v : Text} {n : UInt32} (k : NumKind) (path : Path k.name u v) :
      Derives N u n (.num k) v n
  | prim {u v : Text} {n : UInt32} (k : PrimKind) (path : Path k.name u v) :
      Derives N u n (.prim k) v n
  | bare {u v p : Text} {n : UInt32} {e : Declared} (path : Path p u v) (denotes : N.Denotes p e)
      (arity : e.arity = 0) : Derives N u n (.adt e.item []) v n
  | applied {u u₁ u₂ u₃ v p : Text} {n m : UInt32} {e : Declared} {ts : List Ty}
      (path : Path p u u₁) (denotes : N.Denotes p e) (left : Token "<" u₁ u₂)
      (args : DerivesList N u₂ n ts u₃ m) (right : Token ">" u₃ v) (arity : e.arity = ts.length) :
      Derives N u n (.adt e.item ts) v m

/-- One type or several, with commas between them. -/
inductive DerivesList (N : NameTable) :
    (u : Text) → (n : UInt32) → List Ty → (v : Text) → (m : UInt32) → Prop
  | one {u v : Text} {n m : UInt32} {t : Ty} (elem : Derives N u n t v m) :
      DerivesList N u n [t] v m
  | more {u u₁ u₂ v : Text} {n k m : UInt32} {t : Ty} {ts : List Ty} (elem : Derives N u n t u₁ k)
      (comma : Token "," u₁ u₂) (rest : DerivesList N u₂ k ts v m) :
      DerivesList N u n (t :: ts) v m

end

/-! ## Tokens -/

section
variable {t u v v' w p : Text} {a b : UInt8} {s s' : Text}

theorem Token.append_eq (h : Token t u v) (h' : Token s u v') : t ++ v = s ++ v' :=
  h.symm.trans h'

/-- What stands at the front starts with one byte only. -/
theorem Token.not_token (h : Token (a :: s) u v) (hab : a ≠ b) : ¬ Token (b :: s') u v' :=
  fun h' => hab (List.cons.inj (h.append_eq h')).1

theorem Token.length_le (h : Token t u v) : t.length + v.length ≤ u.length := by
  have hl := (List.dropWhile_suffix isSpace (l := u)).length_le
  rwa [show u.dropWhile isSpace = t ++ v from h, List.length_append] at hl

theorem Token.length_lt (h : Token (a :: s) u v) : v.length < u.length := by
  have hl := h.length_le
  rw [List.length_cons] at hl
  omega

theorem Word.eq_cons (h : Word w u v) : ∃ b x, w = b :: x ∧ isIdentStart b = true := by
  have hw := h.ident
  cases w with
  | nil => cases hw
  | cons b x => exact ⟨b, x, rfl, (isIdent_cons.1 hw).1⟩

theorem Word.length_lt (h : Word w u v) : v.length < u.length := by
  obtain ⟨b, x, rfl, -⟩ := h.eq_cons
  exact h.token.length_lt

theorem Segments.length_le (h : Segments u p v) : v.length ≤ u.length := by
  induction h with
  | stop => exact Nat.le_refl _
  | more colons word _ ih => exact ih.trans (word.length_lt.trans colons.length_lt).le

theorem Path.length_lt (h : Path p u v) : v.length < u.length := by
  obtain ⟨w, q, u', hw, hq, -⟩ := h
  exact hq.length_le.trans_lt hw.length_lt

/-- A path starts like an identifier. -/
theorem Path.token (h : Path p u v) : ∃ b x v', Token (b :: x) u v' ∧ isIdentStart b = true := by
  obtain ⟨w, q, u', hw, -, -⟩ := h
  obtain ⟨b, x, rfl, hb⟩ := hw.eq_cons
  exact ⟨b, x, u', hw.token, hb⟩

theorem Path.eq_cons (h : Path p u v) : ∃ b x, p = b :: x ∧ isIdentStart b = true := by
  obtain ⟨w, q, u', hw, -, rfl⟩ := h
  obtain ⟨b, x, rfl, hb⟩ := hw.eq_cons
  exact ⟨b, x ++ q, rfl, hb⟩

theorem Path.not_token (h : Path p u v) (hb : isIdentStart b = false) : ¬ Token (b :: s) u v' := by
  obtain ⟨a, x, v'', ha, hs⟩ := h.token
  exact ha.not_token fun e => by rw [e, hb] at hs; cases hs

variable {N : NameTable} {n m : UInt32} {ty : Ty} {tys : List Ty}

theorem Derives.not_closing (h : Derives N u n ty v m) : ¬ Token ")" u v' := by
  cases h with
  | shared h | mutable h | never h | integer h | float h | unknown h | slice h | unit h | parens h
  | tuple h | tupleComma h => exact h.not_token (by decide)
  | general h | num _ h | prim _ h | bare h | applied h => exact h.not_token rfl

theorem DerivesList.not_closing (h : DerivesList N u n tys v m) : ¬ Token ")" u v' := by
  cases h with
  | one h | more h => exact h.not_closing

end

mutual

theorem Derives.length_lt {N : NameTable} : ∀ {u v : Text} {n m : UInt32} {t : Ty},
    Derives N u n t v m → v.length < u.length
  | _, _, _, _, _, .shared amp _ inner => inner.length_lt.trans amp.length_lt
  | _, _, _, _, _, .mutable amp word inner =>
    inner.length_lt.trans (word.length_lt.trans amp.length_lt)
  | _, _, _, _, _, .never h | _, _, _, _, _, .integer h | _, _, _, _, _, .float h
  | _, _, _, _, _, .unknown h => h.length_lt
  | _, _, _, _, _, .slice left elem right =>
    right.length_lt.trans (elem.length_lt.trans left.length_lt)
  | _, _, _, _, _, .unit left right => right.length_lt.trans left.length_lt
  | _, _, _, _, _, .parens left inner right =>
    right.length_lt.trans (inner.length_lt.trans left.length_lt)
  | _, _, _, _, _, .tuple left elems _ right =>
    right.length_lt.trans (elems.length_lt.trans left.length_lt)
  | _, _, _, _, _, .tupleComma left elems comma right =>
    right.length_lt.trans (comma.length_lt.trans (elems.length_lt.trans left.length_lt))
  | _, _, _, _, _, .general path | _, _, _, _, _, .num _ path | _, _, _, _, _, .prim _ path
  | _, _, _, _, _, .bare path _ _ => path.length_lt
  | _, _, _, _, _, .applied path _ left args right _ =>
    right.length_lt.trans (args.length_lt.trans (left.length_lt.trans path.length_lt))

theorem DerivesList.length_lt {N : NameTable} : ∀ {u v : Text} {n m : UInt32} {ts : List Ty},
    DerivesList N u n ts v m → v.length < u.length
  | _, _, _, _, _, .one elem => elem.length_lt
  | _, _, _, _, _, .more elem comma rest =>
    rest.length_lt.trans (comma.length_lt.trans elem.length_lt)

end

end Grammar
end Mismatch
