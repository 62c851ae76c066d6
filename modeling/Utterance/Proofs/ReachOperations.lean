import Utterance.Proofs.Making

/-!
# Operators and built-in functions only make values

No operator changes a value that exists, and neither does a built-in function, apart from the four that change their
first argument and the one that runs a script (`Builtin.isPlain`). What is left makes new values, prints and reads
(`binary_plain`, `builtin_plain`), and so makes only changes that code in any frame can make (`builtin_moves`).
-/

namespace Utterance

/-- The built-in functions that neither change a collection nor run a script. -/
def Builtin.isPlain (b : Builtin) : Bool := !([.append, .pop, .extend, .remove, .run].contains b)

namespace Eval

variable {α : Type} {K : Frame → Prop} {site : Option Call}

section

variable {left : Cell} (hl : left.FrameIn K)

include hl

theorem resultOf_plain {p : Payload} (h : p.isCallable = false) : Plain K site (resultOf left p) :=
  .alloc h hl

variable {details : String}

theorem error_plain (h : OperandReport details) (start stop : Option Position) :
    Plain K site (error start stop details left.levels : Eval α) :=
  .throw (.operand start stop hl h)

theorem illegal_plain (right : Cell) : Plain K site (illegal left right : Eval α) := error_plain hl .illegal _ _

theorem errorOn_plain (right : Cell) (h : OperandReport details) :
    Plain K site (errorOn left right details : Eval α) :=
  error_plain hl h _ _

theorem setResult_plain (right : Cell) (ms : Members) : Plain K site (setResult left right ms) := .alloc rfl hl

theorem dictResult_plain (t : Table) : Plain K site (dictResult left t) :=
  (Plain.newTable t).bind fun _ => .alloc rfl hl

theorem liftResult_plain {γ : Type} (x : Except Fault γ) {p : γ → Payload}
    (h : ∀ a, (p a).isCallable = false) : Plain K site (do resultOf left (p (← lift x))) :=
  (Plain.lift x).bind fun a => resultOf_plain hl (h a)

section

variable (right : Cell)

theorem appendForm_plain (s : Scalar) (form : Option (Except Fault String)) :
    Plain K site (appendForm left right s form) := by
  unfold appendForm
  split
  · exact resultOf_plain hl rfl
  · exact illegal_plain hl right

theorem add_plain (r : Ref) : Plain K site (add left right r) := by
  unfold add
  split
  · exact liftResult_plain hl _ fun _ => rfl
  · exact liftResult_plain hl _ fun _ => rfl
  · exact liftResult_plain hl _ fun _ => rfl
  · exact liftResult_plain hl _ fun _ => rfl
  · exact Plain.store.bind fun _ => appendForm_plain hl right _ _
  · exact .alloc rfl hl
  · exact errorOn_plain hl right .immutable
  · exact setResult_plain hl right _
  · refine .ite ((Plain.payload _).bind fun p => ?_) (illegal_plain hl right)
    cases p.key? with
    | some key => exact (Plain.table _).bind fun _ => dictResult_plain hl _
    | none => exact errorOn_plain hl right .badKey
  · exact illegal_plain hl right

theorem missingKey_plain (key : Scalar) : Plain K site (do errorOn left right (← lift (missingKey key)) : Eval α) := by
  cases h : missingKey key with
  | ok report => exact errorOn_plain hl right (.missingKey h)
  | error f => exact .fault f

theorem sub_plain : Plain K site (sub left right) := by
  unfold sub
  split
  · exact liftResult_plain hl _ fun _ => rfl
  · split
    · exact .alloc rfl hl
    · exact errorOn_plain hl right .removal
  · exact errorOn_plain hl right .immutable
  · exact setResult_plain hl right _
  · split
    · exact errorOn_plain hl right .badKey
    · exact (Plain.table _).bind fun _ => .ite (dictResult_plain hl _) (missingKey_plain hl right _)
  · exact illegal_plain hl right

theorem mul_plain : Plain K site (mul left right) := by
  unfold mul
  split
  · exact liftResult_plain hl _ fun _ => rfl
  · exact liftResult_plain hl _ fun _ => rfl
  · exact .alloc rfl hl
  · exact .alloc rfl hl
  · exact illegal_plain hl right

theorem entry_plain (n : Nat) : Plain K site (entry left right n) := by
  unfold entry
  split
  · exact errorOn_plain hl right .badKey
  · refine (Plain.table n).bind fun t => ?_
    split
    · exact .pure _
    · exact missingKey_plain hl right _

end

theorem divide_plain (f : Scalar → Scalar → Except Fault Scalar) (h : OperandReport details) (right : Cell)
    (a b : Scalar) : Plain K site (divide f details left right a b) :=
  .ite (errorOn_plain hl right h) (liftResult_plain hl _ fun _ => rfl)

theorem div_plain (right : Cell) : Plain K site (div left right) := by
  unfold div
  split
  · exact divide_plain hl _ .division right _ _
  · split
    · exact .pure _
    · exact errorOn_plain hl right .listElement
  · split
    · exact .pure _
    · exact errorOn_plain hl right .tupleElement
  · exact error_plain hl .unordered _ _
  · exact entry_plain hl right _
  · exact illegal_plain hl right

theorem mod_plain (right : Cell) : Plain K site (mod left right) := by
  unfold mod
  split
  · exact divide_plain hl _ .modulo right _ _
  · exact illegal_plain hl right
  · exact .fault _

theorem eq_plain (right : Cell) : Plain K site (eq left right) := by
  unfold eq
  split
  · exact resultOf_plain hl rfl
  · exact illegal_plain hl right

theorem ne_plain (right : Cell) : Plain K site (ne left right) := by
  unfold ne
  split
  · exact illegal_plain hl right
  · exact illegal_plain hl right
  · exact resultOf_plain hl rfl

theorem order_plain (rel : Scalar.Order) (right : Cell) : Plain K site (order rel left right) := by
  unfold order
  split
  · exact liftResult_plain hl _ fun _ => rfl
  · exact liftResult_plain hl _ fun _ => rfl
  · exact illegal_plain hl right

theorem onSets_plain (f : Members → Members → Members) (property : String) (right : Cell) :
    Plain K site (onSets f property left right) := by
  unfold onSets
  split
  · exact setResult_plain hl right _
  · exact illegal_plain hl right
  · exact .fault _

theorem choose_plain (takeFirst : Scalar → Bool) (right : Cell) : Plain K site (choose takeFirst left right) := by
  unfold choose
  split
  · exact liftResult_plain hl _ fun _ => rfl
  · exact illegal_plain hl right

end

theorem binary_plain (op : Operator) (l r : Ref) : Plain K site (binary op l r) := by
  refine .cell l fun left hl => .cell r fun right _ => ?_
  cases op with
  | add => exact add_plain hl right r
  | sub => exact sub_plain hl right
  | mul => exact mul_plain hl right
  | div => exact div_plain hl right
  | mod => exact mod_plain hl right
  | eq => exact eq_plain hl right
  | ne => exact ne_plain hl right
  | order rel => exact order_plain hl rel right
  | intersect | symmetricDifference => exact onSets_plain hl _ _ right
  | and | or => exact choose_plain hl _ right

theorem equality?_plain (l r : Ref) : Plain K site (equality? l r) := by
  refine .cell l fun left hl => .cell r fun right _ => ?_
  split
  · exact (resultOf_plain hl rfl).bind fun _ => .pure _
  · exact .pure _

theorem negate_plain (r : Ref) : Plain K site (negate r) := .cell r fun _ hc => mul_plain hc _

theorem negation_plain (r : Ref) : Plain K site (negation r) := by
  refine .cell r fun c hc => ?_
  split
  · exact resultOf_plain hc rfl
  · exact illegal_plain hc c

theorem isTrue_plain (r : Ref) : Plain K site (isTrue r) := by
  refine (Plain.payload r).bind fun p => ?_
  split
  · exact .pure _
  · exact .pure _
  · exact .fault _
  · exact .pure _
  · exact (Plain.table _).bind fun _ => .pure _
  · exact .pure _
  · exact .pure _

theorem scalar_plain (r : Ref) : Plain K site (scalar r) := by
  refine (Plain.payload r).bind fun p => ?_
  split
  · exact .pure _
  · exact .pure _
  · exact .fault _

end Eval

namespace Call

open Eval

variable {α : Type} {K : Frame → Prop} {site : Option Call} (c : Call)

instance (r : Ref) (details : String) : Looks K (some c) (c.list r details) :=
  .bind inferInstance fun p => by split <;> infer_instance

instance (r : Ref) (details : String) : Looks K (some c) (c.string r details) :=
  .bind inferInstance fun p => by split <;> infer_instance

instance (r : Ref) (details : String) : Looks K (some c) (c.number r details) :=
  .bind inferInstance fun p => by split <;> infer_instance

instance (r : Ref) (details : String) : Looks K (some c) (c.dict r details) :=
  .bind inferInstance fun p => by split <;> infer_instance

instance (r : Ref) : Looks K (some c) (c.key r) := .bind inferInstance fun p => by split <;> infer_instance

instance (r : Ref) : Looks K (some c) (c.delimiter r) := .bind inferInstance fun p => by split <;> infer_instance

instance (r : Ref) : Looks K (some c) (c.joinPart r) := .bind inferInstance fun p => by split <;> infer_instance

instance (x : Except Pattern.Refusal α) : Looks K (some c) (c.ofPattern x) := by
  unfold ofPattern
  split <;> infer_instance

instance (r : Ref) : Looks K (some c) (c.patternSource r) := .bind inferInstance fun p => by split <;> infer_instance

instance (source : Except Scalar Pattern.Compiled) : Looks K (some c) (c.compiled source) := by
  unfold compiled
  split <;> infer_instance

instance (s : Scalar) : Settled K site (subject s) := by
  unfold subject
  split <;> infer_instance

instance (s : Scalar) : Settled K site (template s) := by
  unfold template
  split <;> infer_instance

instance (p r : Ref) : Looks K (some c) (c.patternAndText p r) := .bind inferInstance inferInstance

theorem list_reads (r : Ref) (details : String) : Reads (c.list r details) :=
  (inferInstance : Looks (fun _ => True) (some c) _).reads

theorem number_reads (r : Ref) (details : String) : Reads (c.number r details) :=
  (inferInstance : Looks (fun _ => True) (some c) _).reads

theorem string_reads (r : Ref) (details : String) : Reads (c.string r details) :=
  (inferInstance : Looks (fun _ => True) (some c) _).reads

theorem key_reads (r : Ref) : Reads (c.key r) := (inferInstance : Looks (fun _ => True) (some c) _).reads

instance (s : Scalar) (property : String) : Settled K site (text s property) := by
  unfold text
  split <;> infer_instance

instance (s : Scalar) : Works K site (newCharacters s) := by
  unfold newCharacters
  split <;> infer_instance

instance (r : Ref) : Works K site (sequence r) := .bind inferInstance fun p => by split <;> infer_instance

instance (chars : List Char) (d : Scalar) : Works K site (piecesOf chars d) := by
  unfold piecesOf
  split <;> infer_instance

instance (position : Nat) (s : Scalar) : Works K site (replaceArgument position s) := by
  unfold replaceArgument
  split <;> infer_instance

instance (s : Scalar) : Works K site (cuttable s) := by
  unfold cuttable
  split <;> infer_instance

instance (s : Option String) : Works K site (textOrNull s) := by
  unfold textOrNull
  split <;> infer_instance

instance (element : Payload) (rs : List Ref) : Works K site (anyEquals element rs) := by
  induction rs with
  | nil => exact inferInstanceAs (Works K site (pure false))
  | cons r rs ih => exact .bind inferInstance fun p => by split <;> infer_instance

instance (left : Nat) : Works K site (integerLine left) := by
  induction left with
  | zero => exact ⟨.throw .exhausted, fun h => nomatch h⟩
  | succ left ih => exact .bind inferInstance fun line => by split <;> infer_instance

instance (r : Ref) : Works K site (toTuple r) := .bind inferInstance fun p => by split <;> infer_instance

instance (r : Ref) : Works K site (toList r) := .bind inferInstance fun p => by split <;> infer_instance

instance (r : Ref) : Works K site (shown r) := .bind inferInstance inferInstance

instance (r : Ref) : Works K site (display r) := .bind inferInstance inferInstance

instance : Works K site input := .bind inferInstance inferInstance

instance : Works K site inputInt := .bind inferInstance inferInstance

instance : Works K site help := .bind inferInstance inferInstance

instance : Works K site Call.exit := .bind inferInstance fun _ => ⟨.throw .exit, fun h => nomatch h⟩

instance (r : Ref) : Neat K (some c) (c.len r) := .bind inferInstance fun p => by split <;> infer_instance

theorem works_keyValue (key : Scalar) : Works K site (fresh (keyValue key)) := .fresh (by cases key <;> rfl)

instance (r : Ref) : Neat K (some c) (c.keys r) :=
  .bind inferInstance fun _ => .bind inferInstance fun t =>
    (Works.bind (.mapM t fun _ => works_keyValue _) inferInstance).neat

instance (r : Ref) : Neat K (some c) (c.values r) := .bind inferInstance inferInstance

instance (r k : Ref) : Neat K (some c) (c.hasKey r k) := .bind inferInstance inferInstance

instance (r e : Ref) : Neat K (some c) (c.contains r e) := .bind inferInstance fun p => by split <;> infer_instance

instance (r : Ref) : Neat K (some c) (c.setFromList r) := .bind inferInstance inferInstance

instance (r d : Ref) : Neat K (some c) (c.split r d) := .bind inferInstance inferInstance

instance (r s : Ref) : Neat K (some c) (c.join r s) :=
  .bind inferInstance fun es => .bind inferInstance fun _ => .bind (.mapM es.toList inferInstance) inferInstance

instance (r : Ref) : Neat K (some c) (c.upper r) := .bind inferInstance inferInstance

instance (r : Ref) : Neat K (some c) (c.lower r) := .bind inferInstance inferInstance

instance (r o n : Ref) : Neat K (some c) (c.replace r o n) := .bind inferInstance inferInstance

instance (r i j : Ref) : Neat K (some c) (c.substring r i j) := by
  refine .bind inferInstance fun s => .bind inferInstance fun first => ?_
  split
  · infer_instance
  · exact .bind inferInstance fun _ => .bind inferInstance fun p => by split <;> infer_instance

instance (p r : Ref) : Neat K (some c) (c.regexMatch p r) := .bind inferInstance fun _ => (Works.fresh rfl).neat

instance (p r : Ref) : Neat K (some c) (c.regexSearch p r) :=
  .bind inferInstance fun found => by
    dsimp only
    split <;> infer_instance

instance (p n r : Ref) : Neat K (some c) (c.regexReplace p n r) :=
  .bind inferInstance fun _ => .bind inferInstance fun _ => .bind inferInstance fun _ =>
    .bind inferInstance inferInstance

instance (p r : Ref) : Neat K (some c) (c.regexFindAll p r) :=
  .bind inferInstance fun _ => (Works.bind (.mapM _ fun groups => by split <;> infer_instance) inferInstance).neat

instance (p r : Ref) : Neat K (some c) (c.regexSplit p r) :=
  .bind inferInstance fun _ => (Works.bind (.mapM _ fun piece => by
    split
    · infer_instance
    · exact .fresh rfl) inferInstance).neat

instance (r : Ref) : Neat K (some c) (c.errorMessage r) := .bind inferInstance fun p => by split <;> infer_instance

instance (r : Ref) : Neat K (some c) (c.errorType r) := .bind inferInstance fun p => by split <;> infer_instance

instance (a b : Ref) : Looks K (some c) (c.bothSets a b) :=
  .bind inferInstance fun _ => .bind inferInstance fun _ => by split <;> infer_instance

instance (f : Members → Members → Bool) (a b : Ref) : Neat K (some c) (compareSets f c a b) :=
  .bind inferInstance inferInstance

-- the new set is seen where the first argument was, whose frame is known

instance (f : Members → Members → Members) (a b : Ref) : Neat K (some c) (combine f c a b) where
  plain := by
    unfold combine bothSets
    simp only [bind_assoc]
    refine .cell a fun left hl => .cell b fun right _ => ?_
    split
    · exact .alloc rfl hl
    · exact .throw (.refused _ rfl)
  tidy := (inferInstance : Looks (fun _ => True) (some c) (c.bothSets a b)).reads.andThen fun _ _ _ _ h => nomatch h

instance (r e : Ref) : Neat K (some c) (c.add r e) where
  plain := by
    refine .cell r fun cell hc => ?_
    split
    · exact Plain.store.bind fun _ => (Plain.ofPrinting _).bind fun _ => .alloc rfl hc
    · exact Looks.plain
  tidy := by
    refine Reads.andThen (x := cell r) (fun _ => rfl) fun cell => ?_
    split
    · exact (Works.bind inferInstance fun _ => .bind inferInstance fun _ => .alloc rfl fun _ _ => trivial :
        Works (fun _ => True) (some c) _).neat.tidy
    · exact (Reads.throw _).tidy

end Call

namespace Eval

/-- A built-in function that does not change a collection makes values, prints and reads, and does nothing if it is
refused. -/
theorem builtin_neat (ev : Evaluator) (c : Call) {b : Builtin} (hb : b.isPlain = true) (args : List Ref) :
    Neat K (some c) (builtin ev c b args) := by
  unfold builtin
  split
  case h_5 | h_6 | h_7 | h_11 | h_12 => exact absurd hb (by decide)
  all_goals infer_instance

theorem builtin_plain (ev : Evaluator) (c : Call) {b : Builtin} (hb : b.isPlain = true) (args : List Ref) :
    Plain K (some c) (builtin ev c b args) :=
  (builtin_neat ev c hb args).plain

/-- What evaluates and binds nothing only makes values. -/
theorem Primitive.plain {x : Eval α} (h : Primitive x) (K : Frame → Prop) : Plain K none x := by
  cases h with
  | pure a => exact .pure a
  | fault f => exact .fault f
  | lift x => exact .lift x
  | ofPrinting x => exact .ofPrinting x
  | store => exact .store
  | payload r => exact .payload r
  | elementAt r i | itemAt r i => exact (Plain.payload r).bind fun p => by split <;> exact .pure _
  | isTrue r => exact isTrue_plain r
  | scalar r => exact scalar_plain r
  | equality l r => exact equality?_plain l r
  | binary o l r => exact binary_plain o l r
  | unary op r =>
    unfold Eval.unary
    split
    · exact negate_plain r
    · exact .ite (negation_plain r) (.pure _)
  | newTable t => exact .newTable t
  | number i => exact .fresh rfl

theorem builtin_moves (ev : Evaluator) (c : Call) {b : Builtin} (hb : b.isPlain = true) (args : List Ref) :
    Moves frame (builtin ev c b args) :=
  Plain.moves fun _ => builtin_plain ev c hb args

end Eval

end Utterance
