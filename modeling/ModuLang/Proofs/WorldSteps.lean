import ModuLang.Library
import ModuLang.Proofs.Confinement

/-!
# Steps that touch the world alone

Most native functions compute a primitive value, or have it from the world: they print and read,
draw, look at the clock, use files and commands. They touch neither the heap nor the environment nor
the frames, and they do not return from the function around them. The others, which make and change
objects, are those of the packages `array` and `json`.
-/

namespace ModuLang

open Eval Library

variable {α β : Type}

/-! ### Computations -/

/-- Whether a condition holds of all that can be computed with a check: of every primitive value that is
no integer, and of every integer in range. -/
structure Computable (P : Value → Prop) : Prop where
  other : ∀ v, v.IsPrimitive → (∀ n, v ≠ .int n) → P v
  number : ∀ n, Number.inRange n = true → P (.int n)

/-- Whether a computation gives a value with a property if it gives one. -/
def Gives (P : Value → Prop) (x : Except Failure Value) : Prop :=
  ∀ v, x = .ok v → P v

theorem computable_isPrimitive : Computable Value.IsPrimitive :=
  ⟨fun _ hv _ => hv, fun _ _ => trivial⟩

section Rules

variable {P : Value → Prop}

theorem gives_ok {v : Value} (hv : P v) : Gives P (.ok v) := by
  intro w h
  cases h
  exact hv

theorem gives_error (failure : Failure) : Gives P (.error failure) := by
  intro w h
  cases h

theorem gives_refuse (cause : Cause) : Gives P (refuse cause) :=
  gives_error _

theorem gives_bind {x : Except Failure α} {k : α → Except Failure Value}
    (hk : ∀ a, x = .ok a → Gives P (k a)) : Gives P (x >>= k) := by
  intro v h
  rw [Source.bind_eq_ok] at h
  obtain ⟨a, ha, h⟩ := h
  exact hk a ha v h

end Rules

section Lists

theorem exists_of_mem_mapM {ε : Type} {f : α → Except ε β} {as : List α} {bs : List β} {b : β}
    (h : as.mapM f = .ok bs) (hb : b ∈ bs) : ∃ a ∈ as, f a = .ok b := by
  induction as generalizing bs with
  | nil =>
    cases h
    exact absurd hb List.not_mem_nil
  | cons a as ih =>
    rw [List.mapM_cons, Source.bind_eq_ok] at h
    obtain ⟨first, hfirst, h⟩ := h
    obtain ⟨rest, hrest, h⟩ := Source.bind_eq_ok.mp h
    cases h
    rcases List.mem_cons.mp hb with rfl | hb
    · exact ⟨a, List.mem_cons_self, hfirst⟩
    · obtain ⟨a', hmem, ha'⟩ := ih hrest hb
      exact ⟨a', List.mem_cons_of_mem _ hmem, ha'⟩

end Lists

section Computations

variable {P : Value → Prop} (hP : Computable P)

/-- Making an integer of a value gives an integer. -/
theorem exists_of_toInt {v w : Value} (h : toInt v = .ok w) : ∃ n, w = .int n := by
  have hgives : Gives (fun w => ∃ n, w = .int n) (toInt v) := by
    unfold toInt
    split
    · exact gives_ok ⟨_, rfl⟩
    · exact gives_ok ⟨_, rfl⟩
    · split
      · exact gives_ok ⟨_, rfl⟩
      · exact gives_refuse _
    · refine gives_bind fun read _ => ?_
      split
      · exact gives_ok ⟨_, rfl⟩
      · split
        · exact gives_ok ⟨_, rfl⟩
        · exact gives_refuse _
    · exact gives_refuse _
  exact hgives w h

theorem toNumeric?_eq_inl {v : Value} {n : Int} (h : toNumeric? v = some (.inl n)) : v = .int n := by
  cases v with
  | int k =>
    cases h
    rfl
  | _ => cases h

theorem requireNumber_eq_inl {function : String} {v : Value} {n : Int}
    (h : requireNumber function v = .ok (.inl n)) : v = .int n := by
  unfold requireNumber at h
  split at h
  · next hnumeric =>
    cases h
    exact toNumeric?_eq_inl hnumeric
  · cases h

include hP

theorem Computable.float (x : Float) : P (.float x) :=
  hP.other _ trivial (by simp)

theorem Computable.str (s : String) : P (.str s) :=
  hP.other _ trivial (by simp)

theorem Computable.null : P .null :=
  hP.other _ trivial (by simp)

theorem Computable.bool (b : Bool) : P (.bool b) :=
  hP.other _ trivial (by simp)

theorem gives_checkedSum (n : Int) : Gives P (checkedSum n) := by
  unfold checkedSum
  split
  · next hrange => exact gives_ok (hP.number n hrange)
  · exact gives_refuse _

theorem gives_checkedResult (n : Int) : Gives P (checkedResult n) := by
  unfold checkedResult
  split
  · next hrange => exact gives_ok (hP.number n hrange)
  · exact gives_refuse _

theorem gives_toFloat (v : Value) : Gives P (toFloat v) := by
  unfold toFloat
  split
  · exact gives_ok (hP.float _)
  · exact gives_bind fun x _ => gives_ok (hP.float _)
  · exact gives_ok (hP.float _)
  · refine gives_bind fun read _ => ?_
    split
    · exact gives_bind fun x _ => gives_ok (hP.float _)
    · exact gives_ok (hP.float _)
  · exact gives_refuse _

theorem gives_toStr (h : Heap) (v : Value) : Gives P (toStr h v) := by
  unfold toStr
  split
  all_goals first
    | exact gives_bind fun s _ => gives_ok (hP.str _)
    | exact gives_refuse _

theorem gives_quotient (a b : Value) : Gives P (quotient a b) := by
  unfold quotient
  split
  · split
    · exact gives_refuse _
    · split
      · split
        · exact gives_checkedResult hP _
        · split
          · exact gives_ok (hP.float _)
          · exact gives_error _
      · exact gives_bind fun x _ => gives_bind fun y _ => gives_ok (hP.float _)
  · exact gives_refuse _

theorem gives_magnitude (v : Value) : Gives P (magnitude v) := by
  refine gives_bind fun n _ => ?_
  split
  · exact gives_checkedResult hP _
  · exact gives_ok (hP.float _)

theorem gives_floatPower (x y : Float) : Gives P (floatPower x y) := by
  unfold floatPower
  simp only
  split
  · exact gives_ok (hP.float _)
  · split
    · exact gives_refuse _
    · exact gives_refuse _

theorem gives_power (base exponent : Value) : Gives P (power base exponent) := by
  refine gives_bind fun base _ => gives_bind fun exponent _ => ?_
  split
  · split
    · exact gives_checkedResult hP _
    · split
      · exact gives_refuse _
      · exact gives_checkedResult hP _
  · exact gives_bind fun x _ => gives_bind fun y _ => gives_floatPower hP x y

theorem gives_squareRoot (v : Value) : Gives P (squareRoot v) := by
  refine gives_bind fun n _ => ?_
  have hroot : ∀ negative : Bool, Gives P
      (if negative then refuse .rootOfNegative
        else numericToFloat n >>= fun x => pure (.float x.sqrt)) := by
    intro negative
    split
    · exact gives_refuse _
    · exact gives_bind fun x _ => gives_ok (hP.float _)
  exact hroot _

/-- Making a number whole leaves an integer as it is. -/
theorem gives_makeWhole (function : String) (rounding : Number.Rounding) {v : Value}
    (hv : ∀ n, v = .int n → P (.int n)) : Gives P (makeWhole function rounding v) := by
  refine gives_bind fun n hn => ?_
  split
  · exact gives_ok (hv _ (requireNumber_eq_inl hn))
  · split
    · exact gives_checkedResult hP _
    · exact gives_refuse _

/-- The best of some numbers is one of them. -/
theorem gives_best (function : String) (better : Numeric → Numeric → Bool) {vs : List Value}
    (hvs : ∀ n, .int n ∈ vs → P (.int n)) : Gives P (best function better vs) := by
  refine gives_bind fun ns hns => ?_
  have hmem : ∀ n, .inl n ∈ ns → P (.int n) := by
    intro n hn
    obtain ⟨v, hv, hnumber⟩ := exists_of_mem_mapM hns hn
    exact hvs n (requireNumber_eq_inl hnumber ▸ hv)
  -- What is chosen so far is one of the numbers.
  have hchosen : ∀ (rest : List Numeric) (chosen : Numeric), (∀ n, .inl n ∈ chosen :: rest → P (.int n)) →
      P (ofNumeric (rest.foldl (fun chosen n => if better n chosen then n else chosen) chosen)) := by
    intro rest
    induction rest with
    | nil =>
      intro chosen h
      cases chosen with
      | inl n => exact h n List.mem_cons_self
      | inr x => exact hP.float x
    | cons next rest ih =>
      intro chosen h
      refine ih _ fun n hn => h n ?_
      rcases List.mem_cons.mp hn with heq | hn
      · simp only at heq
        split at heq
        · exact heq ▸ List.mem_cons_of_mem _ List.mem_cons_self
        · exact heq ▸ List.mem_cons_self
      · exact List.mem_cons_of_mem _ (List.mem_cons_of_mem _ hn)
  split
  · exact gives_refuse _
  · next first rest => exact gives_ok (hchosen rest first hmem)

theorem gives_addValues (h : Heap) (l r : Value) : Gives P (addValues h l r) := by
  refine gives_bind fun _ _ => gives_bind fun _ _ => ?_
  split
  · exact gives_checkedSum hP _
  · exact gives_bind fun x _ => gives_ok (hP.float _)
  · exact gives_bind fun x _ => gives_ok (hP.float _)
  · exact gives_ok (hP.float _)
  · exact gives_ok (hP.str _)
  · exact gives_bind fun _ _ => gives_bind fun _ _ => gives_refuse _

/-- A difference is computed, or it is the left operand where nothing is subtracted. -/
theorem gives_subtractValues (h : Heap) {l : Value} (hl : P l) (r : Value) :
    Gives P (subtractValues h l r) := by
  unfold subtractValues
  split
  · exact gives_ok hl
  · refine gives_bind fun _ _ => gives_bind fun _ _ => ?_
    split
    · exact gives_checkedSum hP _
    · exact gives_ok (hP.float _)
    · exact gives_checkedSum hP _
    · exact gives_bind fun x _ => gives_ok (hP.float _)
    · exact gives_bind fun x _ => gives_ok (hP.float _)
    · exact gives_ok (hP.float _)
    · exact gives_bind fun _ _ => gives_bind fun _ _ => gives_refuse _

theorem gives_map_bool (x : Except Failure Bool) : Gives P (x.map .bool) := by
  cases x with
  | ok b => exact gives_ok (hP.bool b)
  | error failure => exact gives_error _

/-- An operator computes a value or gives its left operand. -/
theorem gives_operator (op : BinaryOperator) (h : Heap) {l : Value} (hl : P l) (r : Value) :
    Gives P (op.apply h l r) := by
  cases op with
  | add => exact gives_addValues hP h l r
  | subtract => exact gives_subtractValues hP h hl r
  | equal => exact gives_map_bool hP _
  | unequal => exact gives_map_bool hP _

end Computations

/-- An operator gives a primitive value or its left operand. -/
theorem operator_cases {op : BinaryOperator} {h : Heap} {l r v : Value}
    (hv : op.apply h l r = .ok v) : v = l ∨ v.IsPrimitive := by
  have hcomputable : Computable fun v => v = l ∨ v.IsPrimitive :=
    ⟨fun _ hw _ => .inr hw, fun _ _ => .inr trivial⟩
  exact gives_operator hcomputable op h (.inl rfl) r v hv

/-! ### Steps -/

/-- What is asked of a result: of a value the given condition, and of an interrupt that it is no
return. -/
def EndsWorldly (P : α → Prop) : Except Interrupt α → Prop
  | .ok a => P a
  | .error i => ∀ v, i ≠ .returned v

/-- Whether a step touches the world alone, and ends as asked. -/
def Worldly (x : Eval α) (P : α → Prop) : Prop :=
  ∀ m : Machine, (∃ w, (x.outcome m).2 = { m with world := w }) ∧ EndsWorldly P (x.outcome m).1

section Rules

variable {P : α → Prop} {Q : β → Prop} {x : Eval α}

theorem worldly_pure {a : α} (ha : P a) : Worldly (pure a) P :=
  fun m => ⟨⟨m.world, rfl⟩, ha⟩

theorem worldly_throw {i : Interrupt} (hi : ∀ v, i ≠ .returned v) : Worldly (throw i) P :=
  fun m => ⟨⟨m.world, rfl⟩, hi⟩

theorem worldly_fail (cause : Cause) : Worldly (fail cause) P :=
  worldly_throw (by simp)

theorem worldly_crash (c : Crash) : Worldly (crash c) P :=
  worldly_throw (by simp)

theorem worldly_ofExcept {r : Except Failure α} (hr : ∀ a, r = .ok a → P a) :
    Worldly (ofExcept r) P := by
  cases r with
  | ok a => exact worldly_pure (hr a rfl)
  | error failure => exact worldly_throw (by simp)

theorem worldly_ofCause {r : Except Cause α} (hr : ∀ a, r = .ok a → P a) : Worldly (ofCause r) P := by
  cases r with
  | ok a => exact worldly_pure (hr a rfl)
  | error cause => exact worldly_throw (by simp)

theorem Worldly.bind {k : α → Eval β} (hx : Worldly x P) (hk : ∀ a, P a → Worldly (k a) Q) :
    Worldly (x >>= k) Q := by
  intro m
  have hout := hx m
  rw [outcome_bind]
  revert hout
  obtain ⟨r, m'⟩ := x.outcome m
  rintro ⟨⟨w, rfl⟩, hends⟩
  cases r with
  | error i => exact ⟨⟨w, rfl⟩, hends⟩
  | ok a =>
    obtain ⟨⟨w', hw'⟩, hends'⟩ := hk a hends { m with world := w }
    exact ⟨⟨w', hw'⟩, hends'⟩

theorem worldly_heap : Worldly Eval.heap fun _ => True :=
  fun m => ⟨⟨m.world, rfl⟩, trivial⟩

theorem worldly_object (a : Address) : Worldly (object a) fun _ => True :=
  fun m => ⟨⟨m.world, rfl⟩, trivial⟩

theorem worldly_world : Worldly Eval.world fun _ => True :=
  fun m => ⟨⟨m.world, rfl⟩, trivial⟩

theorem worldly_setWorld (w : Host.World) : Worldly (setWorld w) fun _ => True :=
  fun _ => ⟨⟨w, rfl⟩, trivial⟩

theorem worldly_write (s : String) : Worldly (write s) fun _ => True :=
  fun m => ⟨⟨m.world.write s, rfl⟩, trivial⟩

theorem worldly_modifyWorld (f : Host.World → α × Host.World) :
    Worldly (modifyGet fun m => ((f m.world).1, { m with world := (f m.world).2 })) fun _ => True :=
  fun m => ⟨⟨(f m.world).2, rfl⟩, trivial⟩

theorem worldly_draw : Worldly draw fun _ => True :=
  worldly_modifyWorld fun w => w.randomBits

theorem worldly_display (v : Value) : Worldly (display v) fun _ => True :=
  worldly_heap.bind fun _ _ => worldly_ofCause fun _ _ => trivial

theorem worldly_displayAll (vs : List Value) : Worldly (displayAll vs) fun _ => True := by
  have hlist : Worldly (vs.mapM display) fun _ => True := by
    induction vs with
    | nil => exact worldly_pure trivial
    | cons v vs ih =>
      rw [List.mapM_cons]
      exact (worldly_display v).bind fun _ _ => ih.bind fun _ _ => worldly_pure trivial
  exact hlist.bind fun _ _ => worldly_pure trivial

end Rules

/-! ### Native functions -/

section Natives

variable {P : Value → Prop} (hP : Computable P)

theorem Gives.worldly {r : Except Failure Value} (hr : Gives P r) : Worldly (ofExcept r) P :=
  worldly_ofExcept hr

include hP

theorem worldly_null : Worldly (pure Value.null) P :=
  worldly_pure hP.null

theorem worldly_str (s : String) : Worldly (pure (Value.str s)) P :=
  worldly_pure (hP.str s)

/-- The builtin `int` gives an integer that need not be in range. -/
theorem worldly_builtin (f : Builtin) {args : List Value}
    (hint : f = .int → ∀ v n, args = [v] → toInt v = .ok (.int n) → P (.int n)) :
    Worldly (f.apply args) P := by
  unfold Builtin.apply
  split
  · exact (worldly_displayAll args).bind fun _ _ => (worldly_write _).bind fun _ _ => worldly_null hP
  · refine (worldly_displayAll args).bind fun _ _ => (worldly_write _).bind fun _ _ => ?_
    exact worldly_world.bind fun w _ => (worldly_setWorld _).bind fun _ _ => worldly_str hP _
  · exact worldly_throw (by simp)
  · next v =>
    refine Gives.worldly fun w hw => ?_
    obtain ⟨n, rfl⟩ := exists_of_toInt hw
    exact hint rfl v n rfl hw
  · exact (gives_toFloat hP _).worldly
  · exact worldly_heap.bind fun h _ => (gives_toStr hP h _).worldly
  · exact worldly_null hP

theorem worldly_math (f : MathFunction) {args : List Value}
    (hargs : ∀ n, .int n ∈ args → P (.int n)) : Worldly (f.apply args) P := by
  have hsingle : ∀ {x}, args = [x] → ∀ n, x = .int n → P (.int n) := by
    rintro x rfl n rfl
    exact hargs n List.mem_cons_self
  unfold MathFunction.apply
  split
  · exact (gives_quotient hP _ _).worldly
  · exact (gives_magnitude hP _).worldly
  · exact (gives_power hP _ _).worldly
  · exact (gives_squareRoot hP _).worldly
  · exact (gives_makeWhole hP _ _ (hsingle rfl)).worldly
  · exact (gives_makeWhole hP _ _ (hsingle rfl)).worldly
  · exact (gives_makeWhole hP _ _ (hsingle rfl)).worldly
  · exact (gives_best hP _ _ hargs).worldly
  · exact (gives_best hP _ _ hargs).worldly
  · exact worldly_draw.bind fun _ _ => worldly_pure (hP.float _)
  · exact worldly_null hP

/-- The time is an integer that need not be in range. -/
theorem worldly_time (f : TimeFunction) (args : List Value) (hnow : f = .now → ∀ n, P (.int n)) :
    Worldly (f.apply args) P := by
  unfold TimeFunction.apply
  split
  · exact worldly_world.bind fun _ _ => worldly_pure (hnow rfl _)
  · exact (worldly_ofExcept (P := fun _ => True) fun _ _ => trivial).bind fun _ _ => worldly_str hP _
  · exact (worldly_ofExcept (P := fun _ => True) fun _ _ => trivial).bind fun _ _ => worldly_str hP _
  · exact worldly_null hP

omit hP in
theorem worldly_pathOf (function : String) (v : Value) :
    Worldly (pathOf function v) fun _ => True := by
  unfold pathOf
  split
  · split
    · exact worldly_pure trivial
    · exact worldly_crash _
  · exact worldly_fail _

omit hP in
theorem worldly_orBlame (r : Except OsError α) : Worldly (orBlame r) fun _ => True := by
  cases r with
  | ok a => exact worldly_pure trivial
  | error e => exact worldly_fail _

theorem worldly_readFile (path : Value) : Worldly (readFile path) P := by
  refine (worldly_pathOf _ _).bind fun p _ => worldly_world.bind fun w _ => ?_
  refine (worldly_orBlame _).bind fun bytes _ => ?_
  split
  · exact worldly_str hP _
  · exact worldly_crash _

theorem worldly_writeFile (function : String) (isAppended : Bool) (path content : Value) :
    Worldly (writeFile function isAppended path content) P := by
  refine (worldly_pathOf _ _).bind fun p _ => worldly_world.bind fun w _ => ?_
  refine (worldly_orBlame _).bind fun place _ => (worldly_orBlame _).bind fun opened _ => ?_
  refine (worldly_setWorld _).bind fun _ _ => (worldly_display _).bind fun text _ => ?_
  refine (worldly_orBlame _).bind fun written _ => (worldly_setWorld _).bind fun _ _ => ?_
  exact worldly_null hP

theorem worldly_applyFile (f : FileFunction) (args : List Value) : Worldly (applyFile f args) P := by
  unfold applyFile
  split
  · exact worldly_readFile hP _
  · exact worldly_writeFile hP _ _ _ _
  · exact worldly_writeFile hP _ _ _ _
  · exact worldly_null hP

theorem worldly_execute (v : Value) : Worldly (execute v) P := by
  unfold execute
  split
  · split
    · exact worldly_crash _
    · split
      · exact worldly_fail _
      · refine worldly_world.bind fun w _ => (worldly_setWorld _).bind fun _ _ => ?_
        split
        · split
          · exact worldly_str hP _
          · exact worldly_fail _
        · exact worldly_crash _
  · exact worldly_fail _

theorem worldly_newIdentifier : Worldly newIdentifier P :=
  worldly_draw.bind fun _ _ => worldly_draw.bind fun _ _ => worldly_str hP _

/-- What a foreign function gives is null, an integer that was checked to fit in 32 bits, or a
text. -/
theorem computable_ofForeign (result : Host.ForeignResult) : P (ofForeign result) := by
  unfold ofForeign
  split
  · exact hP.null
  · split
    · next hfits =>
      have hbounds : minInt32 ≤ result.number ∧ result.number ≤ maxInt32 := by
        simpa using hfits
      have hmin : Number.intMin ≤ minInt32 := by decide
      have hmax : maxInt32 ≤ Number.intMax := by decide
      exact hP.number _ (Number.inRange_iff.mpr ⟨by omega, by omega⟩)
    · exact hP.str _

theorem worldly_foreignCall (args : List Value) : Worldly (foreignCall args) P := by
  unfold foreignCall
  split
  · split
    · exact worldly_fail _
    · exact worldly_fail _
    · exact worldly_fail _
    · split
      · exact worldly_crash _
      · refine worldly_world.bind fun w _ => ?_
        split
        · exact worldly_fail _
        · split
          · exact worldly_fail _
          · exact worldly_pure (computable_ofForeign hP _)
  · exact worldly_fail _

/-- Whether a native function has nothing to do with objects. -/
def Native.IsWorldly : Native → Prop
  | .json _ | .array _ => False
  | _ => True

/-- A native function that has nothing to do with objects touches the world alone, and gives a value
that is computed with a check, but for the functions that make an integer of a value or tell the
time. -/
theorem worldly_native_of [Host.Limits] {f : Native} (hf : f.IsWorldly) {args : List Value}
    (hargs : ∀ n, .int n ∈ args → P (.int n))
    (hint : f = .builtin .int → ∀ v n, args = [v] → toInt v = .ok (.int n) → P (.int n))
    (hnow : f = .time .now → ∀ n, P (.int n)) :
    Worldly (f.apply args) P := by
  unfold Native.apply
  split
  · next f => exact worldly_builtin hP f fun heq => hint (heq ▸ rfl)
  · exact worldly_math hP _ hargs
  · exact worldly_applyFile hP _ _
  · next f => exact worldly_time hP f _ fun heq => hnow (heq ▸ rfl)
  · exact hf.elim
  · exact hf.elim
  · exact worldly_execute hP _
  · exact worldly_null hP
  · exact worldly_newIdentifier hP
  · exact worldly_foreignCall hP _

omit hP in
/-- A native function that has nothing to do with objects gives a primitive value. -/
theorem worldly_native [Host.Limits] {f : Native} (hf : f.IsWorldly) (args : List Value) :
    Worldly (f.apply args) Value.IsPrimitive :=
  worldly_native_of computable_isPrimitive hf (fun _ _ => trivial) (fun _ _ _ _ _ => trivial)
    fun _ _ => trivial

omit hP in
/-- Looking at an element changes nothing. -/
theorem worldly_arrayAt (array index : Value) : Worldly (arrayAt array index) fun _ => True := by
  unfold arrayAt
  split
  · refine (worldly_ofCause (P := fun _ => True) fun _ _ => trivial).bind fun key _ => ?_
    refine (worldly_object _).bind fun o _ => ?_
    split
    · exact worldly_pure trivial
    · exact worldly_fail _
  · exact worldly_fail _

omit hP in
theorem worldly_jsonStringify [Host.Limits] (v : Value) : Worldly
    (jsonStringify v) Value.IsPrimitive := by
  unfold jsonStringify
  split
  · refine worldly_heap.bind fun h _ => ?_
    refine (worldly_ofExcept (P := fun _ => True) fun _ _ => trivial).bind fun document _ => ?_
    exact (worldly_ofCause (P := fun _ => True) fun _ _ => trivial).bind fun _ _ =>
      worldly_str computable_isPrimitive _
  · exact worldly_fail _

end Natives

end ModuLang
