import Utterance.Eval.Machine
import Utterance.Proofs.PrintedForms

/-!
# Data

Data are the values that a program can write down: integers, texts, and lists, tuples and dictionaries of data.
`Denotes` says that a value in a store is a datum, `Datum.chars` is how a datum is written, and `Writable` are the
data that can be read back. A value that is a writable datum is printed as the datum is written (`printed_eq`).
-/

namespace Utterance

open List

/-- A key of a dictionary. -/
inductive Key where
  | int (n : Int)
  | text (s : String)
deriving DecidableEq, Repr

inductive Datum where
  | int (n : Int)
  | text (s : String)
  | list (elements : List Datum)
  | tuple (elements : List Datum)
  | dict (entries : List (Key × Datum))

def intChars (n : Int) : List Char :=
  if n < 0 then '-' :: Nat.toDigits 10 n.natAbs else Nat.toDigits 10 n.natAbs

def textChars (s : String) : List Char := '"' :: (s.toList ++ ['"'])

namespace Key

def scalar : Key → Scalar
  | int n => .int n
  | text s => .text s

def chars : Key → List Char
  | int n => intChars n
  | text s => textChars s

end Key

namespace Datum

mutual

def chars : Datum → List Char
  | int n => intChars n
  | text s => textChars s
  | list ds => '[' :: (elementChars ds ++ [']'])
  | tuple ds => '<' :: (elementChars ds ++ ['>'])
  | dict es => '{' :: (entryChars es ++ ['}'])

def elementChars : List Datum → List Char
  | [] => []
  | d :: ds => chars d ++ moreElementChars ds

def moreElementChars : List Datum → List Char
  | [] => []
  | d :: ds => ',' :: ' ' :: (chars d ++ moreElementChars ds)

def entryChars : List (Key × Datum) → List Char
  | [] => []
  | (k, d) :: es => k.chars ++ ':' :: ' ' :: (chars d ++ moreEntryChars es)

def moreEntryChars : List (Key × Datum) → List Char
  | [] => []
  | (k, d) :: es => ',' :: ' ' :: (k.chars ++ ':' :: ' ' :: (chars d ++ moreEntryChars es))

end

end Datum

/-- An integer with so few digits that it has a text. -/
def ShortInt (n : Int) : Prop := (Nat.toDigits 10 n.natAbs).length ≤ Fault.digitLimit

def PlainText (s : String) : Prop := '"' ∉ s.toList ∧ '\\' ∉ s.toList

def Key.Writable : Key → Prop
  | .int n => ShortInt n
  | .text s => PlainText s

/-- The data that can be read back: integers are short, texts plain, the keys of a dictionary differ, and no tuple
ends with a dictionary, after which `>` would be read as a comparison. -/
inductive Writable : Datum → Prop
  | int {n} : ShortInt n → Writable (.int n)
  | text {s} : PlainText s → Writable (.text s)
  | list {ds} : (∀ d ∈ ds, Writable d) → Writable (.list ds)
  | tuple {ds} : (∀ d ∈ ds, Writable d) → (∀ es, ds.getLast? ≠ some (.dict es)) → Writable (.tuple ds)
  | dict {es} : (es.map Prod.fst).Nodup → (∀ e ∈ es, e.1.Writable) → (∀ e ∈ es, Writable e.2) → Writable (.dict es)

mutual

def Denotes (s : Store) : Datum → Ref → Prop
  | .int n, r => r < s.cells.size ∧ (s.cell r).payload = .number (.int n)
  | .text t, r => r < s.cells.size ∧ (s.cell r).payload = .string (.text t)
  | .list ds, r => r < s.cells.size ∧ ∃ rs, (s.cell r).payload = .list rs ∧ DenoteAll s ds rs.toList
  | .tuple ds, r => r < s.cells.size ∧ ∃ rs, (s.cell r).payload = .tuple rs ∧ DenoteAll s ds rs
  | .dict es, r => r < s.cells.size ∧ ∃ n, (s.cell r).payload = .dict n ∧ n < s.tables.size ∧
    DenoteEntries s es (s.table n)

def DenoteAll (s : Store) : List Datum → List Ref → Prop
  | [], rs => rs = []
  | d :: ds, rs => ∃ r rest, rs = r :: rest ∧ Denotes s d r ∧ DenoteAll s ds rest

/-- The keys of a table are the given ones, and its values are data. -/
def DenoteEntries (s : Store) : List (Key × Datum) → Table → Prop
  | [], t => t = []
  | (k, d) :: es, t => ∃ r rest, t = (k.scalar, r) :: rest ∧ Denotes s d r ∧ DenoteEntries s es rest

end

theorem toList_intercalate_cons (sep x : String) (xs : List String) :
    (sep.intercalate (x :: xs)).toList = x.toList ++ (xs.map fun y => sep.toList ++ y.toList).flatten := by
  rw [String.toList_intercalate]
  induction xs generalizing x with
  | nil => simp [List.intercalate]
  | cons y ys ih =>
    have := ih y
    simp [List.intercalate] at this ⊢
    rw [this]

theorem toList_elements (ds : List Datum) :
    (", ".intercalate (ds.map fun d => String.ofList d.chars)).toList = Datum.elementChars ds := by
  cases ds with
  | nil => rfl
  | cons d ds =>
    rw [map_cons, toList_intercalate_cons, Datum.elementChars, String.toList_ofList]
    congr 1
    induction ds with
    | nil => rfl
    | cons d' ds ih => simp [Datum.moreElementChars, ← ih]

theorem toList_entries (es : List (Key × Datum)) :
    (", ".intercalate (es.map fun e => String.ofList (e.1.chars ++ ':' :: ' ' :: e.2.chars))).toList =
      Datum.entryChars es := by
  cases es with
  | nil => rfl
  | cons e es =>
    rw [map_cons, toList_intercalate_cons, Datum.entryChars, String.toList_ofList, append_assoc,
      cons_append, cons_append]
    congr 4
    induction es with
    | nil => rfl
    | cons e' es ih => simp [Datum.moreEntryChars, ← ih]

theorem printed_int {n : Int} (h : ShortInt n) : (Scalar.int n).printed = .ok (String.ofList (intChars n)) := by
  unfold ShortInt at h
  unfold Scalar.printed Scalar.integerText intChars
  dsimp only
  rw [if_neg (by omega)]

theorem inQuotes_eq (s : String) : inQuotes s = String.ofList (textChars s) := by
  rw [← String.toList_inj]
  simp [inQuotes, textChars]

theorem keyText_eq {k : Key} (h : k.Writable) : Store.keyText k.scalar = .ok (String.ofList k.chars) := by
  cases k with
  | int n => exact printed_int h
  | text s => exact congrArg Except.ok (inQuotes_eq s)

variable {s : Store} {inner : Ref → Printing String}

theorem mapM_elements {ds : List Datum} {rs : List Ref} (h : DenoteAll s ds rs)
    (hd : ∀ d ∈ ds, ∀ r, Denotes s d r → inner r = pure (String.ofList d.chars)) :
    rs.mapM inner = pure (ds.map fun d => String.ofList d.chars) := by
  induction ds generalizing rs with
  | nil =>
    obtain rfl : rs = [] := h
    rfl
  | cons d ds ih =>
    obtain ⟨r, rest, rfl, hr, hrest⟩ := h
    rw [mapM_cons, hd d (by simp) r hr, ih hrest fun d hm => hd d (by simp [hm])]
    rfl

theorem mapM_entries {es : List (Key × Datum)} {t : Table} (h : DenoteEntries s es t)
    (hk : ∀ e ∈ es, e.1.Writable) (hd : ∀ e ∈ es, ∀ r, Denotes s e.2 r → inner r = pure (String.ofList e.2.chars)) :
    (t.mapM fun (key, value) => (do
        return (← Printing.lift (Store.keyText key)) ++ ": " ++ (← inner value) : Printing String)) =
      pure (es.map fun e => String.ofList (e.1.chars ++ ':' :: ' ' :: e.2.chars)) := by
  induction es generalizing t with
  | nil =>
    obtain rfl : t = [] := h
    rfl
  | cons e es ih =>
    obtain ⟨k, d⟩ := e
    obtain ⟨r, rest, rfl, hr, hrest⟩ := h
    have htext : String.ofList k.chars ++ ": " ++ String.ofList d.chars =
        String.ofList (k.chars ++ ':' :: ' ' :: d.chars) := by
      rw [← String.toList_inj]
      simp
    rw [mapM_cons, ih hrest (fun e hm => hk e (by simp [hm])) fun e hm => hd e (by simp [hm])]
    dsimp only
    rw [keyText_eq (hk (k, d) (by simp)), hd (k, d) (by simp) r hr, map_cons, ← htext]
    rfl

/-- A value that is a writable datum is printed as the datum is written. -/
theorem printed_eq {d : Datum} (hw : Writable d) {r : Ref} (h : Denotes s d r) :
    s.printed .quoted r = some (.ok (String.ofList d.chars)) := by
  -- The brackets around what the elements are printed as.
  have brackets (left right : String) (c c' : Char) (hl : left = String.singleton c) (hr : right = String.singleton c')
      (text : String) (cs : List Char) (ht : text.toList = cs) :
      left ++ text ++ right = String.ofList (c :: (cs ++ [c'])) := by
    rw [← String.toList_inj, hl, hr]
    simp [ht]
  induction hw generalizing r with
  | int hn =>
    rw [Store.printed_eq, Store.printedWith, h.2]
    exact congrArg some (printed_int hn)
  | text ht =>
    rw [Store.printed_eq, Store.printedWith, h.2]
    exact congrArg (some ∘ Except.ok) (inQuotes_eq _)
  | list _ ih =>
    obtain ⟨-, rs, hp, hrs⟩ := h
    rw [Store.printed_eq, Store.printedWith, hp]
    dsimp only
    rw [mapM_elements hrs fun d hm r hr => ih d hm hr]
    exact congrArg (some ∘ Except.ok) (brackets "[" "]" '[' ']' rfl rfl _ _ (toList_elements _))
  | tuple _ _ ih =>
    obtain ⟨-, rs, hp, hrs⟩ := h
    rw [Store.printed_eq, Store.printedWith, hp]
    dsimp only
    rw [mapM_elements hrs fun d hm r hr => ih d hm hr]
    exact congrArg (some ∘ Except.ok) (brackets "<" ">" '<' '>' rfl rfl _ _ (toList_elements _))
  | dict _ hk _ ih =>
    obtain ⟨-, n, hp, -, ht⟩ := h
    rw [Store.printed_eq, Store.printedWith, hp]
    dsimp only
    rw [mapM_entries ht hk fun e hm r hr => ih e hm hr]
    exact congrArg (some ∘ Except.ok) (brackets "\x7b" "\x7d" '{' '}' rfl rfl _ _ (toList_entries _))

end Utterance
