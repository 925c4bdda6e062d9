import ModuLang.Proofs.Interrupts
import ModuLang.Proofs.ValueWalks

/-!
# What the host cannot carry out

Most operations fail with an error of the program if their arguments are wrong. A few reach what the
host itself cannot do: an integer may be too large for a float or have too many digits to be written,
a text may hold what the host cannot take as the name of a file, and a document or the output of a
command may be one that the host cannot read. These end in a crash.

`BinaryOperator.crashes_iff` and `Native.crashes_iff` list them all. One of them is a stack overflow,
where a document is nested too deeply; a run reports that like an error of the program.
-/

namespace ModuLang

open Eval Host Library

variable {α β : Type} {C : Crash → Prop}

/-! ### Computations that crash only in some ways -/

/-- Whether a failure is a crash among the given ones, or an error that has no line yet. -/
def Failure.Within (C : Crash → Prop) : Failure → Prop
  | .fault f => f.line = 0
  | .crash c => C c

/-- Whether every crash of a computation is among the given ones, and none of its errors has a line. -/
def CrashesOnly (C : Crash → Prop) (r : Except Failure α) : Prop :=
  ∀ failure, r = .error failure → failure.Within C

theorem crashesOnly_ok (a : α) : CrashesOnly C (.ok a) := by
  intro failure h
  cases h

theorem crashesOnly_fault (cause : Cause) :
    CrashesOnly C (.error (.fault ⟨cause, 0⟩) : Except Failure α) := by
  intro failure h
  cases h
  rfl

/-- A refusal is no crash where its cause is an error of the program. -/
theorem crashesOnly_refuse {cause : Cause} (h : cause.failure = .fault ⟨cause, 0⟩) :
    CrashesOnly C (refuse cause : Except Failure α) := by
  rw [refuse, h]
  exact crashesOnly_fault cause

theorem crashesOnly_crash {c : Crash} (hc : C c) :
    CrashesOnly C (.error (.crash c) : Except Failure α) := by
  intro failure h
  cases h
  exact hc

theorem CrashesOnly.mono {C' : Crash → Prop} {r : Except Failure α} (hr : CrashesOnly C r)
    (h : ∀ c, C c → C' c) : CrashesOnly C' r := by
  intro failure hfailure
  cases failure with
  | fault f => exact hr _ hfailure
  | crash c => exact h c (hr _ hfailure)

theorem crashesOnly_orRefuse {r : Except Cause α} (h : ∀ c, r = .error (.givenUp c) → C c) :
    CrashesOnly C (orRefuse r) := by
  cases r with
  | ok a => exact crashesOnly_ok a
  | error cause =>
    rcases cause.failure_cases with ⟨c, rfl⟩ | hfault
    · exact crashesOnly_crash (h c rfl)
    · exact crashesOnly_refuse hfault

theorem CrashesOnly.bind {r : Except Failure α} {k : α → Except Failure β} (hr : CrashesOnly C r)
    (hk : ∀ a, r = .ok a → CrashesOnly C (k a)) : CrashesOnly C (r >>= k) := by
  cases r with
  | ok a => exact hk a rfl
  | error failure =>
    intro failure' h
    cases h
    exact hr failure rfl

theorem crashesOnly_mapM {f : α → Except Failure β} {as : List α}
    (h : ∀ a ∈ as, CrashesOnly C (f a)) : CrashesOnly C (as.mapM f) := by
  induction as with
  | nil => exact crashesOnly_ok _
  | cons a as ih =>
    rw [List.mapM_cons]
    refine (h a List.mem_cons_self).bind fun b _ => ?_
    exact (ih fun a ha => h a (List.mem_cons_of_mem _ ha)).bind fun bs _ => crashesOnly_ok _

theorem crashesOnly_map {r : Except Failure α} (f : α → β) (hr : CrashesOnly C r) :
    CrashesOnly C (r.map f) := by
  cases r with
  | ok a => exact crashesOnly_ok _
  | error failure =>
    intro failure' h
    cases h
    exact hr failure rfl

/-! ### Operators -/

theorem crashesOnly_kind (v : Value) : CrashesOnly C v.kind := by
  unfold Value.kind
  split
  · exact crashesOnly_ok _
  · exact crashesOnly_refuse rfl

theorem crashesOnly_checkedSum (n : Int) : CrashesOnly C (checkedSum n) := by
  unfold checkedSum
  split
  · exact crashesOnly_ok _
  · exact crashesOnly_refuse rfl

/-- An integer that is too large for a float crashes. -/
theorem crashesOnly_intToFloat {n : Int} (h : Number.ofInt? n = none → C .integerTooLarge) :
    CrashesOnly C (intToFloat n) := by
  unfold intToFloat
  split
  · exact crashesOnly_ok _
  · next hnone => exact crashesOnly_crash (h hnone)

theorem intToFloat_of_none {n : Int} (h : Number.ofInt? n = none) :
    intToFloat n = .error (.crash .integerTooLarge) := by
  unfold intToFloat
  rw [h]

/-- Whether one of two values is a float and the other one an integer that is too large for one. -/
def MixesTooLarge (l r : Value) : Prop :=
  ∃ n x, Number.ofInt? n = none ∧ (l = .int n ∧ r = .float x ∨ l = .float x ∧ r = .int n)

/-- Whether two values have a sum: two numbers or two texts. -/
def HaveSum (l r : Value) : Prop :=
  (toNumeric? l).isSome ∧ (toNumeric? r).isSome ∨ (textOf? l).isSome ∧ (textOf? r).isSome

/-- Whether two values have a difference: two numbers, null and a number, or anything and null. -/
def HaveDifference (l r : Value) : Prop :=
  r = .null ∨ (l = .null ∨ (toNumeric? l).isSome) ∧ (toNumeric? r).isSome

/-- The values that an operator shows in its error, in this order. -/
inductive BinaryOperator.Shows : BinaryOperator → Value → Value → List Value → Prop where
  | sum {l r : Value} : l.kind?.isSome → r.kind?.isSome → ¬HaveSum l r → Shows .add l r [l, r]
  | difference {l r : Value} : l.kind?.isSome → r.kind?.isSome → ¬HaveDifference l r →
      Shows .subtract l r [r, l]

theorem crashesOnly_mixed {n : Int} {k : Float → Value}
    (h : Number.ofInt? n = none → C .integerTooLarge) :
    CrashesOnly C (intToFloat n >>= fun x => pure (k x)) :=
  (crashesOnly_intToFloat h).bind fun _ _ => crashesOnly_ok _

theorem isSome_of_kind {v : Value} {kind : Kind} (h : v.kind = .ok kind) : v.kind?.isSome := by
  unfold Value.kind at h
  split at h
  · next hkind => rw [hkind, Option.isSome_some]
  · cases h

theorem eq_ok_of_orRefuse {r : Except Cause α} {a : α} (h : orRefuse r = .ok a) : r = .ok a := by
  cases r with
  | ok b =>
    cases h
    rfl
  | error cause => cases h

theorem crashesOnly_isEqual (l r : Value) : CrashesOnly C (isEqual l r) := by
  unfold isEqual
  refine (crashesOnly_kind l).bind fun kind _ => ?_
  split
  · exact crashesOnly_ok _
  · refine (crashesOnly_kind r).bind fun _ _ => ?_
    split <;> exact crashesOnly_ok _

/-- What shows two values in an error crashes where this comes to an integer of too many digits. -/
theorem crashesOnly_showBoth {h : Heap} {first second : Value} {report : String → String → Cause}
    (hreport : ∀ s t, (report s t).failure = .fault ⟨report s t, 0⟩) :
    CrashesOnly (fun c => c = .unreadableText ∧ h.MeetsUnwritableIn [first, second])
      (orRefuse (h.display first) >>= fun s => orRefuse (h.display second) >>= fun t =>
        (refuse (report s t) : Except Failure Value)) := by
  refine (crashesOnly_orRefuse fun c hc => ?_).bind fun s hs => ?_
  · obtain ⟨rfl, hmeets⟩ := display_givenUp_iff.mp hc
    exact ⟨rfl, .here hmeets⟩
  · refine (crashesOnly_orRefuse fun c hc => ?_).bind fun t _ => crashesOnly_refuse (hreport s t)
    obtain ⟨rfl, hmeets⟩ := display_givenUp_iff.mp hc
    exact ⟨rfl, .later (eq_ok_of_orRefuse hs) (.here hmeets)⟩

theorem showBoth_eq_crash {h : Heap} {first second : Value} {report : String → String → Cause}
    (hmeets : h.MeetsUnwritableIn [first, second]) :
    (orRefuse (h.display first) >>= fun s => orRefuse (h.display second) >>= fun t =>
      (refuse (report s t) : Except Failure Value)) = .error (.crash .unreadableText) := by
  cases hmeets with
  | here hmeets =>
    rw [display_givenUp_iff.mpr ⟨rfl, hmeets⟩]
    rfl
  | later hshown hmeets =>
    cases hmeets with
    | here hmeets =>
      rw [hshown, display_givenUp_iff.mpr ⟨rfl, hmeets⟩]
      rfl
    | later _ hmeets => cases hmeets

theorem addValues_of_not_haveSum {h : Heap} {l r : Value} (hl : l.kind?.isSome)
    (hr : r.kind?.isSome) (hsum : ¬HaveSum l r) :
    addValues h l r = orRefuse (h.display l) >>= fun s => orRefuse (h.display r) >>= fun t =>
      refuse (.cannotAdd s t) := by
  obtain ⟨kindLeft, hl⟩ := Option.isSome_iff_exists.mp hl
  obtain ⟨kindRight, hr⟩ := Option.isSome_iff_exists.mp hr
  unfold addValues Value.kind
  simp only [hl, hr, Source.ok_bind]
  split
  any_goals exact absurd (.inl ⟨rfl, rfl⟩) hsum
  · exact absurd (.inr ⟨rfl, rfl⟩) hsum
  · rfl

theorem subtractValues_of_not_haveDifference {h : Heap} {l r : Value} (hl : l.kind?.isSome)
    (hr : r.kind?.isSome) (hdifference : ¬HaveDifference l r) :
    subtractValues h l r = orRefuse (h.display r) >>= fun s => orRefuse (h.display l) >>= fun t =>
      refuse (.cannotSubtract s t) := by
  obtain ⟨kindLeft, hl⟩ := Option.isSome_iff_exists.mp hl
  obtain ⟨kindRight, hr⟩ := Option.isSome_iff_exists.mp hr
  have hnull : r.isNull = false := by
    cases r with
    | null => exact absurd (.inl rfl) hdifference
    | _ => rfl
  unfold subtractValues Value.kind
  simp only [hnull, hl, hr, Source.ok_bind, Bool.false_eq_true, if_false]
  split
  any_goals exact absurd (.inr ⟨.inr rfl, rfl⟩) hdifference
  any_goals exact absurd (.inr ⟨.inl rfl, rfl⟩) hdifference
  rfl

/-- What the host cannot carry out of an operator on two values, and how it gives up. -/
inductive BinaryOperator.Exceeds (h : Heap) : BinaryOperator → Value → Value → Crash → Prop where
  /-- A float and an integer that is too large for one are added or subtracted. -/
  | sum {l r : Value} : MixesTooLarge l r → Exceeds h .add l r .integerTooLarge
  | difference {l r : Value} : MixesTooLarge l r → Exceeds h .subtract l r .integerTooLarge
  /-- The values are shown in an error, and this comes to an integer of too many digits. -/
  | shown {op : BinaryOperator} {l r : Value} {vs : List Value} : op.Shows l r vs →
      h.MeetsUnwritableIn vs → Exceeds h op l r .unreadableText

theorem crashesOnly_addValues (h : Heap) (l r : Value) :
    CrashesOnly (BinaryOperator.Exceeds h .add l r) (addValues h l r) := by
  unfold addValues
  refine (crashesOnly_kind l).bind fun _ hl => (crashesOnly_kind r).bind fun _ hr => ?_
  split
  · exact crashesOnly_checkedSum _
  · exact crashesOnly_mixed fun hn => .sum ⟨_, _, hn, .inl ⟨rfl, rfl⟩⟩
  · exact crashesOnly_mixed fun hn => .sum ⟨_, _, hn, .inr ⟨rfl, rfl⟩⟩
  · exact crashesOnly_ok _
  · exact crashesOnly_ok _
  · next hints hmixed hmixed' hfloats htexts =>
    refine (crashesOnly_showBoth fun s t => rfl).mono ?_
    rintro _ ⟨rfl, hmeets⟩
    refine .shown (.sum (isSome_of_kind hl) (isSome_of_kind hr) ?_) hmeets
    rintro (⟨hleft, hright⟩ | ⟨hleft, hright⟩)
    · cases l <;> cases hleft <;> cases r <;> cases hright
      · exact hints _ _ rfl rfl
      · exact hmixed _ _ rfl rfl
      · exact hmixed' _ _ rfl rfl
      · exact hfloats _ _ rfl rfl
    · cases l <;> cases hleft
      cases r <;> cases hright
      exact htexts _ _ rfl rfl

theorem crashesOnly_subtractValues (h : Heap) (l r : Value) :
    CrashesOnly (BinaryOperator.Exceeds h .subtract l r) (subtractValues h l r) := by
  unfold subtractValues
  split
  · exact crashesOnly_ok _
  next hnull =>
  refine (crashesOnly_kind l).bind fun _ hl => (crashesOnly_kind r).bind fun _ hr => ?_
  split
  · exact crashesOnly_checkedSum _
  · exact crashesOnly_ok _
  · exact crashesOnly_checkedSum _
  · exact crashesOnly_mixed fun hn => .difference ⟨_, _, hn, .inl ⟨rfl, rfl⟩⟩
  · exact crashesOnly_mixed fun hn => .difference ⟨_, _, hn, .inr ⟨rfl, rfl⟩⟩
  · exact crashesOnly_ok _
  · next hminus hminus' hints hmixed hmixed' hfloats =>
    refine (crashesOnly_showBoth fun s t => rfl).mono ?_
    rintro _ ⟨rfl, hmeets⟩
    refine .shown (.difference (isSome_of_kind hl) (isSome_of_kind hr) ?_) hmeets
    rintro (rfl | ⟨rfl | hleft, hright⟩)
    · exact hnull rfl
    · cases r <;> cases hright
      · exact hminus _ rfl rfl
      · exact hminus' _ rfl rfl
    · cases l <;> cases hleft <;> cases r <;> cases hright
      · exact hints _ _ rfl rfl
      · exact hmixed _ _ rfl rfl
      · exact hmixed' _ _ rfl rfl
      · exact hfloats _ _ rfl rfl

/-- The errors of an operator have no line yet, and it crashes on what the host cannot carry out. -/
theorem BinaryOperator.crashesOnly_apply (op : BinaryOperator) (h : Heap) (l r : Value) :
    CrashesOnly (op.Exceeds h l r) (op.apply h l r) := by
  cases op with
  | add => exact crashesOnly_addValues h l r
  | subtract => exact crashesOnly_subtractValues h l r
  | equal => exact crashesOnly_map Value.bool (crashesOnly_isEqual l r)
  | unequal => exact crashesOnly_map Value.bool (crashesOnly_map (!·) (crashesOnly_isEqual l r))

/-- An operator crashes exactly on what the host cannot carry out. -/
theorem BinaryOperator.crashes_iff (op : BinaryOperator) (h : Heap) (l r : Value) (c : Crash) :
    op.apply h l r = .error (.crash c) ↔ op.Exceeds h l r c := by
  refine ⟨op.crashesOnly_apply h l r (.crash c), fun hexceeds => ?_⟩
  cases hexceeds with
  | sum hmixes | difference hmixes =>
    obtain ⟨n, x, hn, ⟨rfl, rfl⟩ | ⟨rfl, rfl⟩⟩ := hmixes
    all_goals
      simp only [BinaryOperator.apply, addValues, subtractValues, intToFloat_of_none hn]
      rfl
  | shown hshows hmeets =>
    cases hshows with
    | sum hl hr hsum => exact (addValues_of_not_haveSum hl hr hsum).trans (showBoth_eq_crash hmeets)
    | difference hl hr hdifference =>
      exact (subtractValues_of_not_haveDifference hl hr hdifference).trans (showBoth_eq_crash hmeets)

/-! ### Computations of native functions -/

theorem crashesOnly_readNumber (text target : String) : CrashesOnly C (readNumber text target) := by
  unfold readNumber
  split
  · exact crashesOnly_ok _
  · split
    · exact crashesOnly_ok _
    · exact crashesOnly_refuse rfl

theorem crashesOnly_toInt (v : Value) : CrashesOnly C (toInt v) := by
  unfold toInt
  split
  · exact crashesOnly_ok _
  · exact crashesOnly_ok _
  · split
    · exact crashesOnly_ok _
    · exact crashesOnly_refuse rfl
  · refine (crashesOnly_readNumber _ _).bind fun number _ => ?_
    split
    · exact crashesOnly_ok _
    · split
      · exact crashesOnly_ok _
      · exact crashesOnly_refuse rfl
  · exact crashesOnly_refuse rfl

/-- The text of a primitive value is refused where it is an integer of too many digits. -/
theorem crashesOnly_toStr (h : Heap) (v : Value)
    (hint : ∀ n, v = .int n → ¬Number.isWritable n = true → C .unreadableText) :
    CrashesOnly C (toStr h v) := by
  have hshown : v.IsPrimitive → CrashesOnly C
      (orRefuse (h.display v) >>= fun s => (pure (.str s) : Except Failure Value)) := by
    refine fun hv => (crashesOnly_orRefuse fun c hc => ?_).bind fun _ _ => crashesOnly_ok _
    obtain ⟨rfl, hmeets⟩ := display_givenUp_iff.mp hc
    obtain ⟨n, rfl, hn⟩ := hmeets.eq_int_of_isPrimitive hv
    exact hint n rfl hn
  unfold toStr
  split
  any_goals exact hshown trivial
  exact crashesOnly_refuse rfl

theorem crashesOnly_requireNumber (function : String) (v : Value) :
    CrashesOnly C (requireNumber function v) := by
  unfold requireNumber
  split
  · exact crashesOnly_ok _
  · exact crashesOnly_refuse rfl

theorem crashesOnly_checkedResult (n : Int) : CrashesOnly C (checkedResult n) := by
  unfold checkedResult
  split
  · exact crashesOnly_ok _
  · exact crashesOnly_refuse rfl

theorem crashesOnly_magnitude (v : Value) : CrashesOnly C (magnitude v) := by
  refine (crashesOnly_requireNumber _ v).bind fun n _ => ?_
  cases n with
  | inl n => exact crashesOnly_checkedResult _
  | inr x => exact crashesOnly_ok _

theorem crashesOnly_powerArgument (n : Numeric) : CrashesOnly C (powerArgument n) := by
  unfold powerArgument
  split
  · exact crashesOnly_ok _
  · split
    · exact crashesOnly_ok _
    · exact crashesOnly_refuse rfl

theorem crashesOnly_floatPower (x y : Float) : CrashesOnly C (floatPower x y) := by
  unfold floatPower
  simp only
  split
  · exact crashesOnly_ok _
  · split
    · exact crashesOnly_refuse rfl
    · exact crashesOnly_refuse rfl

/-- A power of integers that are too large for floats is an error, not a crash. -/
theorem crashesOnly_power (base exponent : Value) : CrashesOnly C (power base exponent) := by
  refine (crashesOnly_requireNumber _ base).bind fun base _ => ?_
  refine (crashesOnly_requireNumber _ exponent).bind fun exponent _ => ?_
  split
  · split
    · exact crashesOnly_checkedResult _
    · split
      · exact crashesOnly_refuse rfl
      · exact crashesOnly_checkedResult _
  · refine (crashesOnly_powerArgument _).bind fun x _ => (crashesOnly_powerArgument _).bind fun y _ => ?_
    exact crashesOnly_floatPower x y

theorem crashesOnly_makeWhole (function : String) (rounding : Number.Rounding) (v : Value) :
    CrashesOnly C (makeWhole function rounding v) := by
  refine (crashesOnly_requireNumber _ v).bind fun n _ => ?_
  cases n with
  | inl n => exact crashesOnly_ok _
  | inr x =>
    simp only
    split
    · exact crashesOnly_checkedResult _
    · exact crashesOnly_refuse rfl

theorem crashesOnly_best (function : String) (better : Numeric → Numeric → Bool) (vs : List Value) :
    CrashesOnly C (best function better vs) := by
  refine (crashesOnly_mapM fun v _ => crashesOnly_requireNumber function v).bind fun ns _ => ?_
  split
  · exact crashesOnly_refuse rfl
  · exact crashesOnly_ok _

theorem crashesOnly_checkYear (function : String) (seconds : Int) :
    CrashesOnly C (checkYear function seconds) := by
  unfold checkYear
  simp only
  split
  · exact crashesOnly_refuse rfl
  · split
    · exact crashesOnly_refuse rfl
    · exact crashesOnly_ok _

theorem crashesOnly_clockSeconds (v : Value) (function : String) :
    CrashesOnly C (clockSeconds v function) := by
  have hrange : ∀ seconds, CrashesOnly C
      (if !Number.inRange seconds then refuse (.invalidTimestamp function .outsideClock)
        else pure seconds) := by
    intro seconds
    split
    · exact crashesOnly_refuse rfl
    · exact crashesOnly_ok _
  unfold clockSeconds
  split
  · exact hrange _
  · split
    · exact hrange _
    · exact (crashesOnly_refuse rfl).bind fun seconds _ => hrange seconds
  · exact (crashesOnly_refuse rfl).bind fun seconds _ => hrange seconds

theorem crashesOnly_timestamp (function : String) (v : Value) :
    CrashesOnly C (timestamp function v) := by
  refine (crashesOnly_clockSeconds v function).bind fun seconds _ => ?_
  refine (crashesOnly_checkYear _ _).bind fun _ _ => (crashesOnly_checkYear _ _).bind fun _ _ => ?_
  exact crashesOnly_ok _

/-- A document is written as deep as the host can follow it. -/
theorem crashesOnly_ofValue (h : Heap) (levels : Nat) (v : Value) :
    CrashesOnly (· = .stackOverflow) (Json.ofValue h levels v) := by
  induction levels generalizing v with
  | zero => exact crashesOnly_crash rfl
  | succ levels ih =>
    cases v with
    | object a =>
      rw [Json.ofValue]
      split
      · split
        · next hitems =>
          rw [Object.eq_corruptedArray_of_elements hitems]
          exact crashesOnly_fault _
        · exact (crashesOnly_mapM fun item _ => ih item).bind fun _ _ => crashesOnly_ok _
      · refine (crashesOnly_mapM fun entry _ => ?_).bind fun _ _ => crashesOnly_ok _
        exact (ih entry.2).bind fun _ _ => crashesOnly_ok _
    | function | native | foreign =>
      -- What has no document is shown in the error, and all of this can be shown.
      unfold Json.ofValue
      simp only [Heap.display, Heap.showInner, Heap.showNested]
      exact crashesOnly_fault _
    | _ => exact crashesOnly_ok _

theorem crashesOnly_parse [Host.Limits] {s : String}
    (h : ∀ c, Json.parse s = .error (.crash c) → C c) : CrashesOnly C (Json.parse s) := by
  revert h
  unfold Json.parse
  split
  · exact fun _ => crashesOnly_ok _
  · exact fun h => crashesOnly_crash (h _ rfl)
  · exact fun h => crashesOnly_crash (h _ rfl)
  · exact fun _ => crashesOnly_fault _

/-! ### Receivers -/

/-- A receiver crashes exactly if it is an integer of too many digits, which its error would show. -/
theorem addressOf_crashes_iff {v : Value} {m : Machine} {c : Crash} :
    (∃ m', (addressOf v).outcome m = (.error (.failed (.crash c)), m')) ↔
      ∃ n, v = .int n ∧ ¬Number.isWritable n = true ∧ c = .unreadableText := by
  constructor
  · rintro ⟨m', hcrash⟩
    have hv : ∀ a, v ≠ .object a := by
      rintro a rfl
      cases hcrash
    rw [outcome_addressOf hv, outcome_bind] at hcrash
    cases hform : m.heap.display v with
    | ok s =>
      rw [hform] at hcrash
      cases hcrash
    | error cause =>
      rw [hform] at hcrash
      have hfailure : cause.failure = .crash c :=
        Interrupt.failed.inj (Except.error.inj (congrArg Prod.fst hcrash))
      rcases cause.failure_cases with ⟨c', rfl⟩ | hfault
      · obtain ⟨rfl, hmeets⟩ := display_givenUp_iff.mp hform
        cases hfailure
        cases hmeets with
        | int hn => exact ⟨_, rfl, hn, rfl⟩
        | element | property => exact absurd rfl (hv _)
      · cases hfault.symm.trans hfailure
  · rintro ⟨n, rfl, hn, rfl⟩
    refine ⟨m, ?_⟩
    rw [outcome_addressOf (by simp), display_givenUp_iff.mpr ⟨rfl, .int hn⟩]
    rfl

/-! ### Operations on arrays -/

theorem Object.push_givenUp_iff {o : Object} {item : Value} {c : Crash} :
    o.push item = .error (.givenUp c) ↔
      c = .unreadableText ∧ ∃ n, o.length = .ok n ∧ ¬Number.isWritable n = true := by
  unfold Object.push
  cases hlength : o.length with
  | error cause =>
    obtain rfl := eq_corruptedArray_of_length hlength
    exact iff_of_false (fun h => by cases h) fun ⟨_, _, h, _⟩ => by cases h
  | ok n =>
    rw [Source.ok_bind, Number.writeInteger]
    split
    · next hn =>
      refine iff_of_false (fun h => by cases h) ?_
      rintro ⟨-, _, ⟨⟩, hnot⟩
      exact hnot hn
    · next hn =>
      constructor
      · intro h
        cases h
        exact ⟨rfl, n, rfl, hn⟩
      · rintro ⟨rfl, -⟩
        rfl

theorem Object.pop_givenUp_iff {o : Object} {c : Crash} :
    o.pop = .error (.givenUp c) ↔
      c = .unreadableText ∧ ∃ n, o.length = .ok n ∧ 1 ≤ n ∧ ¬Number.isWritable (n - 1) = true := by
  unfold Object.pop
  cases hlength : o.length with
  | error cause =>
    obtain rfl := eq_corruptedArray_of_length hlength
    exact iff_of_false (fun h => by cases h) fun ⟨_, _, h, _⟩ => by cases h
  | ok n =>
    rw [Source.ok_bind, Number.writeInteger]
    split
    · next hpos =>
      refine iff_of_false (fun h => by cases h) ?_
      rintro ⟨-, _, ⟨⟩, hge, -⟩
      omega
    · next hpos =>
      split
      · next hn =>
        rw [Source.ok_bind]
        refine iff_of_false (fun h => ?_) ?_
        · split at h <;> cases h
        · rintro ⟨-, _, ⟨⟩, -, hnot⟩
          exact hnot hn
      · next hn =>
        constructor
        · intro h
          cases h
          exact ⟨rfl, n, rfl, Int.not_lt.mp hpos, hn⟩
        · rintro ⟨rfl, -⟩
          rfl

theorem Object.shift_ne_givenUp {o : Object} {c : Crash} : o.shift ≠ .error (.givenUp c) := by
  unfold Object.shift
  cases hitems : o.elements with
  | error cause =>
    obtain rfl := eq_corruptedArray_of_elements hitems
    exact fun h => by cases h
  | ok items => cases items <;> exact fun h => by cases h

theorem Object.unshift_ne_givenUp {o : Object} {item : Value} {c : Crash} :
    o.unshift item ≠ .error (.givenUp c) := by
  unfold Object.unshift
  cases hitems : o.elements with
  | error cause =>
    obtain rfl := eq_corruptedArray_of_elements hitems
    exact fun h => by cases h
  | ok items => exact fun h => by cases h

/-! ### Native functions -/

/-- Whether a function writes files, and whether it keeps what is in them. -/
def FileFunction.keeps? : FileFunction → Option Bool
  | .read => none
  | .write => some false
  | .writeAppend => some true

/-- Whether a file can be opened to be written, and what it holds then. -/
structure OpensFile (files : FileSystem) (isAppended : Bool) (s : String) (place : List String)
    (opened : FileSystem) : Prop where
  isText : isHostText s = true
  isPlace : files.openForWriting (Path.ofString s) = .ok place
  isOpened : files.store place (if isAppended then files.contentAt place else []) = .ok opened

/-- The applications of native functions that the host cannot carry out on a machine, and how it gives
up. -/
inductive Native.Exceeds [Host.Limits] (m : Machine) : Native → List Value → Crash → Prop where
  /-- An integer that is to be written has too many digits: in what is printed or asked, -/
  | print {vs : List Value} : m.heap.MeetsUnwritableIn vs →
      Exceeds m (.builtin .print) vs .unreadableText
  | input {onServer : Bool} {vs : List Value} : m.heap.MeetsUnwritableIn vs →
      Exceeds m (.builtin (.input onServer)) vs .unreadableText
  /-- in the text of a value, -/
  | str {n : Int} : ¬Number.isWritable n = true →
      Exceeds m (.builtin .str) [.int n] .unreadableText
  /-- in what is written to a file, once that is open, -/
  | written {f : FileFunction} {isAppended : Bool} {s : String} {v : Value} {place : List String}
      {opened : FileSystem} : f.keeps? = some isAppended →
      OpensFile m.world.files isAppended s place opened → m.heap.MeetsUnwritable [] v →
      Exceeds m (.file f) [.str s, v] .unreadableText
  /-- in a document, -/
  | stringify {a : Address} {j : Json} : Json.ofValue m.heap stackLimit (.object a) = .ok j →
      j.isWritable = false → Exceeds m (.json .stringify) [.object a] .unreadableText
  /-- or as the index of an element. -/
  | at {a : Address} {i : Int} : ¬Number.isWritable i = true →
      Exceeds m (.array .at) [.object a, .int i] .unreadableText
  | push {a : Address} {item : Value} {n : Int} :
      ((m.heap.copyValue item).2.get a).length = .ok n → ¬Number.isWritable n = true →
      Exceeds m (.array .push) [.object a, item] .unreadableText
  | pop {a : Address} {n : Int} : (m.heap.get a).length = .ok n → 1 ≤ n →
      ¬Number.isWritable (n - 1) = true → Exceeds m (.array .pop) [.object a] .unreadableText
  /-- An integer is too large for a float. -/
  | float {n : Int} : Number.ofInt? n = none →
      Exceeds m (.builtin .float) [.int n] .integerTooLarge
  /-- A text is read as an integer, and that is too large for a float. -/
  | floatOfText {s : String} {n : Int} : Number.readInteger s = .number n →
      Number.ofInt? n = none → Exceeds m (.builtin .float) [.str s] .integerTooLarge
  /-- A quotient of integers is no integer, and too large for a float. -/
  | quotient {a b : Int} : b ≠ 0 → a % b ≠ 0 → Number.ofQuotient? a b = none →
      Exceeds m (.math .div) [.int a, .int b] .integerTooLarge
  /-- The integer in a quotient with a float is too large for one. -/
  | quotientOfInt {n : Int} {x : Float} : (x == 0) = false → Number.ofInt? n = none →
      Exceeds m (.math .div) [.int n, .float x] .integerTooLarge
  | quotientByInt {x : Float} {n : Int} : Number.ofInt? n = none →
      Exceeds m (.math .div) [.float x, .int n] .integerTooLarge
  /-- The root is taken of an integer that is too large for a float. -/
  | root {n : Int} : 0 ≤ n → Number.ofInt? n = none →
      Exceeds m (.math .sqrt) [.int n] .integerTooLarge
  /-- An integer in a document has too many digits, or the document is nested too deeply. -/
  | document {s : String} {c : Crash} : Json.parse s = .error (.crash c) →
      Exceeds m (.json .parse) [.str s] c
  /-- An object is nested too deeply for a document. -/
  | deep {a : Address} : Json.ofValue m.heap stackLimit (.object a) = .error (.crash .stackOverflow) →
      Exceeds m (.json .stringify) [.object a] .stackOverflow
  /-- The name of a file is no text of the host. -/
  | readName {s : String} : isHostText s = false →
      Exceeds m (.file .read) [.str s] .unreadableText
  | writeName {f : FileFunction} {isAppended : Bool} {s : String} {v : Value} :
      f.keeps? = some isAppended → isHostText s = false →
      Exceeds m (.file f) [.str s, v] .unreadableText
  /-- A file is no text. -/
  | content {s : String} {bytes : List UInt8} {defect : Text.Utf8Defect} : isHostText s = true →
      m.world.files.read (Path.ofString s) = .ok bytes → decodeText bytes = .error defect →
      Exceeds m (.file .read) [.str s] .undecodable
  /-- A command is no text of the host. -/
  | command {s : String} : isHostText s = false → Exceeds m .exec [.str s] .unreadableText
  /-- What a command prints is no text. -/
  | printed {s : String} {defect : Text.Utf8Defect} : isHostText s = true →
      ¬Shell.lengthLimit ≤ s.utf8ByteSize →
      (decodeText (m.world.shell m.world.files s).output = .error defect ∨
        decodeText (m.world.shell m.world.files s).errors = .error defect) →
      Exceeds m .exec [.str s] .undecodable
  /-- The name of a library is no text of the host. -/
  | library {path name : String} {rest : List Value} : isHostText path = false →
      (rest.mapM textOf?).isSome → Exceeds m .call (.str path :: .str name :: rest) .unreadableText

/-- The interrupts that the application of a native function may end with; its errors have no line
yet. -/
def Native.MayRaise [Host.Limits] (f : Native) (vs : List Value) (m : Machine) : Interrupt → Prop
  | .failed (.fault f) => f.line = 0
  | .failed (.crash c) => f.Exceeds m vs c
  | .exited => ∃ onServer, f = .builtin (.exit onServer)
  | .returned _ => False

section Natives

variable {m m₀ : Machine} {I : Interrupt → Prop}

theorem crashesOnly_toFloat [Host.Limits] (v : Value) :
    CrashesOnly (Native.Exceeds m (.builtin .float) [v]) (toFloat v) := by
  unfold toFloat
  split
  · exact crashesOnly_ok _
  · exact (crashesOnly_intToFloat .float).bind fun _ _ => crashesOnly_ok _
  · exact crashesOnly_ok _
  · next s =>
    refine (crashesOnly_readNumber _ _).bind fun number hnumber => ?_
    split
    · next n =>
      have hread : Number.readInteger s = .number n := by
        unfold readNumber at hnumber
        split at hnumber
        · next hread =>
          cases hnumber
          exact hread
        · split at hnumber <;> cases hnumber
      exact (crashesOnly_intToFloat (.floatOfText hread)).bind fun _ _ => crashesOnly_ok _
    · exact crashesOnly_ok _
  · exact crashesOnly_refuse rfl

theorem eq_ofNumeric {v : Value} {n : Numeric} (h : toNumeric? v = some n) : v = ofNumeric n := by
  unfold toNumeric? at h
  split at h <;> cases h <;> rfl

theorem eq_ofNumeric_of_requireNumber {function : String} {v : Value} {n : Numeric}
    (h : requireNumber function v = .ok n) : v = ofNumeric n := by
  unfold requireNumber at h
  split at h
  · next hn =>
    cases h
    exact eq_ofNumeric hn
  · cases h

theorem crashesOnly_squareRoot [Host.Limits] (v : Value) :
    CrashesOnly (Native.Exceeds m (.math .sqrt) [v]) (squareRoot v) := by
  unfold squareRoot
  refine (crashesOnly_requireNumber _ _).bind fun n hn => ?_
  obtain rfl := eq_ofNumeric_of_requireNumber hn
  cases n with
  | inl n =>
    simp only
    split
    · exact crashesOnly_refuse rfl
    · next hnegative =>
      have hpos : 0 ≤ n := by simpa using hnegative
      exact (crashesOnly_intToFloat (.root hpos)).bind fun _ _ => crashesOnly_ok _
  | inr x =>
    simp only
    split
    · exact crashesOnly_refuse rfl
    · exact crashesOnly_ok _

theorem crashesOnly_quotient [Host.Limits] (a b : Value) :
    CrashesOnly (Native.Exceeds m (.math .div) [a, b]) (quotient a b) := by
  unfold quotient
  split
  · next x y hx hy =>
    obtain rfl := eq_ofNumeric hx
    obtain rfl := eq_ofNumeric hy
    split
    · exact crashesOnly_refuse rfl
    · next hzero =>
      split
      · next a b =>
        have hb : b ≠ 0 := by simpa [isZero] using hzero
        split
        · exact crashesOnly_checkedResult _
        · next hrest =>
          split
          · exact crashesOnly_ok _
          · next hnone => exact crashesOnly_crash (.quotient hb hrest hnone)
      · -- One of the two is a float.
        next hints =>
        cases x with
        | inl n =>
          cases y with
          | inl k => exact absurd rfl (hints n k rfl)
          | inr y =>
            have hy : (y == 0) = false := by simpa [isZero] using hzero
            refine (crashesOnly_intToFloat (.quotientOfInt hy)).bind fun _ _ => ?_
            exact crashesOnly_ok _
        | inr x =>
          cases y with
          | inl k => exact (crashesOnly_intToFloat .quotientByInt).bind fun _ _ => crashesOnly_ok _
          | inr y => exact crashesOnly_ok _
  · exact crashesOnly_refuse rfl

theorem Native.mayRaise_fault [Host.Limits] (f : Native) (vs : List Value) (m : Machine)
    (cause : Cause) :
    f.MayRaise vs m (.failed (.fault ⟨cause, 0⟩)) :=
  rfl

theorem eq_ok_of_outcome_ofExcept {r : Except Failure α} {a : α} {m' : Machine}
    (h : (ofExcept r).outcome m = (.ok a, m')) : r = .ok a := by
  cases r with
  | ok b =>
    cases h
    rfl
  | error failure => cases h

theorem raises_ofExcept [Host.Limits] {f : Native} {vs : List Value} {r : Except Failure α}
    (hr : CrashesOnly (f.Exceeds m₀ vs) r) :
    Raises (f.MayRaise vs m₀) m (ofExcept r) := by
  cases r with
  | ok a => exact raises_of_ok rfl
  | error failure =>
    refine raises_throw ?_
    cases failure with
    | fault fault => exact hr _ rfl
    | crash c => exact hr _ rfl

theorem raises_modify (f : Machine → Machine) : Raises I m (modify f : Eval Unit) :=
  raises_of_ok rfl

/-- What is shown of some values is computed from the heap alone. -/
theorem outcome_displayAll (vs : List Value) (m : Machine) :
    (displayAll vs).outcome m =
      (ofCause (vs.mapM m.heap.display) >>= fun texts => pure ("".intercalate texts)).outcome m := by
  have hlist : (vs.mapM display).outcome m = (ofCause (vs.mapM m.heap.display)).outcome m := by
    induction vs with
    | nil => rfl
    | cons v vs ih =>
      rw [List.mapM_cons, List.mapM_cons, outcome_bind, outcome_display]
      cases m.heap.display v with
      | error cause => rfl
      | ok s =>
        change (vs.mapM display >>= fun texts => pure (s :: texts)).outcome m = _
        rw [outcome_bind, ih, Source.ok_bind]
        cases vs.mapM m.heap.display <;> rfl
  rw [displayAll, outcome_bind, hlist, outcome_bind]

theorem raises_displayAll (hI : ∀ cause, I (.failed (.fault ⟨cause, 0⟩))) {vs : List Value}
    (hcrash : m.heap.MeetsUnwritableIn vs → I (.failed (.crash .unreadableText))) :
    Raises I m (displayAll vs) := by
  refine Raises.congr (Raises.bind (raises_ofCause hI fun c hc => ?_) fun _ _ _ => raises_of_ok rfl)
    (outcome_displayAll vs m)
  obtain ⟨rfl, hmeets⟩ := mapM_display_givenUp_iff.mp hc
  exact hcrash hmeets

theorem raises_builtin [Host.Limits] (f : Builtin) (vs : List Value) :
    Raises (Native.MayRaise (.builtin f) vs m) m (f.apply vs) := by
  have hfault := Native.mayRaise_fault (.builtin f) vs m
  unfold Builtin.apply
  split
  · exact (raises_displayAll hfault fun hmeets => .print hmeets).bind fun _ m₁ _ =>
      (raises_modify _).bind fun _ m₂ _ => raises_of_ok rfl
  · refine (raises_displayAll hfault fun hmeets => .input hmeets).bind fun _ m₁ _ => ?_
    refine (raises_modify _).bind fun _ m₂ _ => ?_
    exact raises_world.bind fun w m₃ _ => (raises_modify _).bind fun _ m₄ _ => raises_of_ok rfl
  · exact raises_throw ⟨_, rfl⟩
  · exact raises_ofExcept (crashesOnly_toInt _)
  · exact raises_ofExcept (crashesOnly_toFloat _)
  · refine Raises.bind (x := heap) (raises_of_ok rfl) fun h m₁ _ => raises_ofExcept ?_
    refine crashesOnly_toStr h _ ?_
    rintro n rfl hn
    exact .str hn
  · exact raises_of_ok rfl

theorem raises_math [Host.Limits] (f : MathFunction) (vs : List Value) :
    Raises (Native.MayRaise (.math f) vs m₀) m (f.apply vs) := by
  unfold MathFunction.apply
  split
  · exact raises_ofExcept (crashesOnly_quotient _ _)
  · exact raises_ofExcept (crashesOnly_magnitude _)
  · exact raises_ofExcept (crashesOnly_power _ _)
  · exact raises_ofExcept (crashesOnly_squareRoot _)
  · exact raises_ofExcept (crashesOnly_makeWhole _ _ _)
  · exact raises_ofExcept (crashesOnly_makeWhole _ _ _)
  · exact raises_ofExcept (crashesOnly_makeWhole _ _ _)
  · exact raises_ofExcept (crashesOnly_best _ _ _)
  · exact raises_ofExcept (crashesOnly_best _ _ _)
  · exact (raises_modifyGet _).bind fun _ m₁ _ => raises_of_ok rfl
  · exact raises_of_ok rfl

theorem raises_time [Host.Limits] (f : TimeFunction) (vs : List Value) :
    Raises (Native.MayRaise (.time f) vs m₀) m (f.apply vs) := by
  unfold TimeFunction.apply
  split
  · exact raises_of_ok rfl
  · exact (raises_ofExcept (crashesOnly_timestamp _ _)).bind fun _ _ _ => raises_of_ok rfl
  · exact (raises_ofExcept (crashesOnly_timestamp _ _)).bind fun _ _ _ => raises_of_ok rfl
  · exact raises_of_ok rfl

theorem raises_arrayAddress (hI : ∀ cause, I (.failed (.fault ⟨cause, 0⟩))) (function : String)
    (v : Value) : Raises I m (arrayAddress function v) := by
  unfold arrayAddress
  split
  · exact raises_of_ok rfl
  · exact raises_fail hI _

/-- What adds an element raises what the operation on the object fails with. -/
theorem raises_arrayAdd (hI : ∀ cause, I (.failed (.fault ⟨cause, 0⟩))) {function : String}
    {operation : Object → Value → Except Cause Object} {array item : Value}
    (hcrash : ∀ a c, array = .object a →
      operation ((m.heap.copyValue item).2.get a) (m.heap.copyValue item).1 = .error (.givenUp c) →
      I (.failed (.crash c))) :
    Raises I m (arrayAdd function operation array item) := by
  refine (raises_arrayAddress hI _ _).bind fun a m₁ haddress => ?_
  obtain ⟨rfl, rfl⟩ := outcome_arrayAddress haddress
  refine Raises.bind (x := copyValue item) (raises_of_ok rfl) fun copy m₂ hcopy => ?_
  cases hcopy
  refine Raises.bind (x := object a) (raises_of_ok rfl) fun o m₃ ho => ?_
  cases ho
  refine (raises_ofCause hI fun c hc => hcrash a c rfl hc).bind fun _ m₄ _ => ?_
  exact (raises_modify _).bind fun _ _ _ => raises_of_ok rfl

theorem raises_arrayTake (hI : ∀ cause, I (.failed (.fault ⟨cause, 0⟩))) {function : String}
    {operation : Object → Except Cause (Value × Object)} {array : Value}
    (hcrash : ∀ a c, array = .object a → operation (m.heap.get a) = .error (.givenUp c) →
      I (.failed (.crash c))) :
    Raises I m (arrayTake function operation array) := by
  refine (raises_arrayAddress hI _ _).bind fun a m₁ haddress => ?_
  obtain ⟨rfl, rfl⟩ := outcome_arrayAddress haddress
  refine Raises.bind (x := object a) (raises_of_ok rfl) fun o m₂ ho => ?_
  cases ho
  refine (raises_ofCause hI fun c hc => hcrash a c rfl hc).bind fun taken m₃ _ => ?_
  exact (raises_modify _).bind fun _ _ _ => raises_of_ok rfl

theorem raises_array [Host.Limits] (f : ArrayFunction) (vs : List Value) :
    Raises (Native.MayRaise (.array f) vs m) m (applyArray f vs) := by
  have hfault := Native.mayRaise_fault (.array f) vs m
  unfold applyArray
  split
  · exact raises_alloc _
  · unfold arrayAt
    split
    · next a i =>
      refine (raises_ofCause hfault fun c hc => ?_).bind fun key m₁ _ => ?_
      · obtain ⟨rfl, hi⟩ := Number.writeInteger_givenUp_iff.mp hc
        exact .at hi
      · refine Raises.bind (x := object a) (raises_of_ok rfl) fun o m₂ _ => ?_
        split
        · exact raises_of_ok rfl
        · exact raises_fail hfault _
    · exact raises_fail hfault _
  · refine raises_arrayAdd hfault ?_
    rintro a c rfl hc
    obtain ⟨rfl, n, hlength, hn⟩ := Object.push_givenUp_iff.mp hc
    exact .push hlength hn
  · refine raises_arrayTake hfault ?_
    rintro a c rfl hc
    obtain ⟨rfl, n, hlength, hpos, hn⟩ := Object.pop_givenUp_iff.mp hc
    exact .pop hlength hpos hn
  · exact raises_arrayTake hfault fun a c _ hc => absurd hc Object.shift_ne_givenUp
  · exact raises_arrayAdd hfault fun a c _ hc => absurd hc Object.unshift_ne_givenUp
  · exact raises_of_ok rfl

theorem raises_json [Host.Limits] (f : JsonFunction) (vs : List Value) :
    Raises (Native.MayRaise (.json f) vs m) m (applyJson f vs) := by
  have hfault := Native.mayRaise_fault (.json f) vs m
  unfold applyJson
  split
  · exact raises_alloc _
  · unfold jsonStringify
    split
    · next a =>
      refine Raises.bind (x := heap) (raises_of_ok rfl) fun h m₁ hheap => ?_
      obtain ⟨rfl, rfl⟩ : m.heap = h ∧ m = m₁ := by
        cases hheap
        exact ⟨rfl, rfl⟩
      have hencodes : CrashesOnly (Native.Exceeds m (.json .stringify) [.object a])
          (Json.ofValue m.heap stackLimit (.object a)) := by
        intro failure hfails
        have hwithin := crashesOnly_ofValue _ _ _ failure hfails
        cases failure with
        | fault f => exact hwithin
        | crash c =>
          obtain rfl : c = .stackOverflow := hwithin
          exact .deep hfails
      refine (raises_ofExcept hencodes).bind fun j m₂ hj => ?_
      have hdocument : Json.ofValue m.heap stackLimit (.object a) = .ok j :=
        eq_ok_of_outcome_ofExcept hj
      refine (raises_ofCause hfault fun c hc => ?_).bind fun _ _ _ => raises_of_ok rfl
      unfold Json.write at hc
      split at hc
      · cases hc
      · next hunwritable =>
        cases hc
        exact .stringify hdocument (Bool.not_eq_true _ ▸ hunwritable)
    · exact raises_fail hfault _
  · unfold jsonParse
    split
    · refine (raises_ofExcept (crashesOnly_parse fun _ => .document)).bind fun json m₁ _ => ?_
      split
      · exact raises_modifyGet _
      · exact raises_modifyGet _
      · exact raises_fail hfault _
    · exact raises_fail hfault _
  · unfold jsonSet
    split
    · next a key =>
      refine Raises.bind (x := object a) (raises_of_ok rfl) fun o m₁ _ => ?_
      split
      · exact raises_fail hfault _
      · refine (raises_copyValue _).bind fun copy m₂ _ => ?_
        refine Raises.bind (x := object a) (raises_of_ok rfl) fun o m₃ _ => ?_
        exact (raises_modify _).bind fun _ _ _ => raises_of_ok rfl
    · exact raises_fail hfault _
    · exact raises_fail hfault _
  · exact raises_of_ok rfl

theorem raises_orBlame (hI : ∀ cause, I (.failed (.fault ⟨cause, 0⟩))) (r : Except OsError α) :
    Raises I m (orBlame r) := by
  cases r with
  | ok a => exact raises_of_ok rfl
  | error e => exact raises_fail hI _

theorem raises_pathOf (hI : ∀ cause, I (.failed (.fault ⟨cause, 0⟩))) {function : String} {v : Value}
    (hname : ∀ s, v = .str s → isHostText s = false → I (.failed (.crash .unreadableText))) :
    Raises I m (pathOf function v) := by
  unfold pathOf
  split
  · next s =>
    split
    · exact raises_of_ok rfl
    · next hs => exact raises_throw (hname s rfl (by simpa using hs))
  · exact raises_fail hI _

/-- A value that names a path is a text of the host. -/
theorem eq_of_pathOf {function : String} {v : Value} {p : Path} {m' : Machine}
    (h : (pathOf function v).outcome m = (.ok p, m')) :
    m' = m ∧ ∃ s, v = .str s ∧ isHostText s = true ∧ p = Path.ofString s := by
  unfold pathOf at h
  split at h
  · next s =>
    split at h
    · next hs =>
      cases h
      exact ⟨rfl, s, rfl, hs, rfl⟩
    · cases h
  · cases h

/-- What is not refused by the operating system was given by it. -/
theorem outcome_orBlame_eq_ok {r : Except OsError α} {a : α} {m' : Machine}
    (h : (orBlame r).outcome m = (.ok a, m')) : m' = m ∧ r = .ok a := by
  cases r with
  | ok b =>
    cases h
    exact ⟨rfl, rfl⟩
  | error e => cases h

/-- Writing a file fails in the end where the content meets an integer of too many digits: the file is
opened first. -/
theorem raises_writeFile (hI : ∀ cause, I (.failed (.fault ⟨cause, 0⟩))) {function : String}
    {isAppended : Bool} {path content : Value}
    (hname : ∀ s, path = .str s → isHostText s = false → I (.failed (.crash .unreadableText)))
    (hcontent : ∀ s place opened, path = .str s →
      OpensFile m.world.files isAppended s place opened → m.heap.MeetsUnwritable [] content →
      I (.failed (.crash .unreadableText))) :
    Raises I m (writeFile function isAppended path content) := by
  refine (raises_pathOf hI hname).bind fun p m₁ hp => ?_
  obtain ⟨rfl, s, rfl, hs, rfl⟩ := eq_of_pathOf hp
  refine Raises.bind (x := world) raises_world fun w m₂ hw => ?_
  cases hw
  refine (raises_orBlame hI _).bind fun place m₃ hplace => ?_
  obtain ⟨rfl, hplace⟩ := outcome_orBlame_eq_ok hplace
  refine (raises_orBlame hI _).bind fun opened m₄ hopened => ?_
  obtain ⟨rfl, hopened⟩ := outcome_orBlame_eq_ok hopened
  refine Raises.bind (x := setWorld _) (raises_modify _) fun _ m₅ hset => ?_
  cases hset
  refine (raises_display hI fun c hc => ?_).bind fun text m₆ _ => ?_
  · obtain ⟨rfl, hmeets⟩ := display_givenUp_iff.mp hc
    exact hcontent s place opened rfl ⟨hs, hplace, hopened⟩ hmeets
  · refine (raises_orBlame hI _).bind fun written m₇ _ => (raises_modify _).bind fun _ m₈ _ => ?_
    exact raises_of_ok rfl

theorem raises_file [Host.Limits] (f : FileFunction) (vs : List Value) :
    Raises (Native.MayRaise (.file f) vs m) m (applyFile f vs) := by
  have hfault := Native.mayRaise_fault (.file f) vs m
  have hwrite : ∀ {function isAppended path content}, f.keeps? = some isAppended →
      Raises (Native.MayRaise (.file f) [path, content] m) m
        (writeFile function isAppended path content) := by
    intro function isAppended path content hf
    refine raises_writeFile (Native.mayRaise_fault _ _ m) ?_ ?_
    · rintro s rfl hs
      exact .writeName hf hs
    · rintro s place opened rfl hopens hmeets
      exact .written hf hopens hmeets
  unfold applyFile
  split
  · next path =>
    have hname : ∀ s, path = .str s → isHostText s = false →
        Native.MayRaise (.file .read) [path] m (.failed (.crash .unreadableText)) := by
      rintro s rfl hs
      exact .readName hs
    refine (raises_pathOf hfault hname).bind fun p m₁ hp => ?_
    obtain ⟨rfl, s, rfl, hs, rfl⟩ := eq_of_pathOf hp
    refine Raises.bind (x := world) raises_world fun w m₂ hw => ?_
    cases hw
    refine (raises_orBlame hfault _).bind fun bytes m₃ hbytes => ?_
    obtain ⟨rfl, hread⟩ := outcome_orBlame_eq_ok hbytes
    split
    · exact raises_of_ok rfl
    · next hdefect => exact raises_throw (.content hs hread hdefect)
  · exact hwrite rfl
  · exact hwrite rfl
  · exact raises_of_ok rfl

theorem raises_execute [Host.Limits] (v : Value) :
    Raises (Native.MayRaise .exec [v] m) m (execute v) := by
  have hfault := Native.mayRaise_fault .exec [v] m
  unfold execute
  split
  · next s =>
    split
    · next hs => exact raises_throw (.command (by simpa using hs))
    · next hs =>
      split
      · exact raises_fail hfault _
      · next hlength =>
        refine Raises.bind (x := world) raises_world fun w m₁ hw => ?_
        cases hw
        refine (raises_modify _).bind fun _ m₂ _ => ?_
        split
        · split
          · exact raises_of_ok rfl
          · exact raises_fail hfault _
        · next hundecodable =>
          refine raises_throw ?_
          have hhost : isHostText s = true := by simpa using hs
          cases houtput : decodeText (m.world.shell m.world.files s).output with
          | error defect => exact .printed hhost hlength (.inl houtput)
          | ok output =>
            cases herrors : decodeText (m.world.shell m.world.files s).errors with
            | error defect => exact .printed hhost hlength (.inr herrors)
            | ok errors => exact absurd herrors (hundecodable output errors houtput)
  · exact raises_fail hfault _

theorem eq_str_of_textOf? {v : Value} {s : String} (h : textOf? v = some s) : v = .str s := by
  unfold textOf? at h
  split at h <;> cases h
  rfl

theorem raises_foreignCall [Host.Limits] (vs : List Value) :
    Raises (Native.MayRaise .call vs m) m (foreignCall vs) := by
  have hfault := Native.mayRaise_fault .call vs m
  unfold foreignCall
  split
  · next path name rest =>
    split
    · exact raises_fail hfault _
    · exact raises_fail hfault _
    · exact raises_fail hfault _
    · next hpath hname hrest =>
      split
      · next hs =>
        obtain rfl := eq_str_of_textOf? hpath
        obtain rfl := eq_str_of_textOf? hname
        have htexts : (rest.mapM textOf?).isSome := by rw [hrest]; rfl
        exact raises_throw (.library (by simpa using hs) htexts)
      · refine Raises.bind (x := world) raises_world fun w m₁ _ => ?_
        split
        · exact raises_fail hfault _
        · split
          · exact raises_fail hfault _
          · exact raises_of_ok rfl
  · exact raises_fail hfault _

/-- What the application of a native function may end with. -/
theorem raises_native [Host.Limits] (f : Native) (vs : List Value) :
    Raises (f.MayRaise vs m) m (f.apply vs) := by
  unfold Native.apply
  split
  · exact raises_builtin _ _
  · exact raises_math _ _
  · exact raises_file _ _
  · exact raises_time _ _
  · exact raises_json _ _
  · exact raises_array _ _
  · exact raises_execute _
  · exact raises_of_ok rfl
  · exact (raises_modifyGet _).bind fun _ m₁ _ =>
      (raises_modifyGet _).bind fun _ m₂ _ => raises_of_ok rfl
  · exact raises_foreignCall _

/-- The functions that write files differ in their name and in what they keep. -/
theorem exists_writeFile {f : FileFunction} {isAppended : Bool} (hf : f.keeps? = some isAppended)
    (path content : Value) : ∃ function,
      applyFile f [path, content] = writeFile function isAppended path content := by
  cases f with
  | read => cases hf
  | write | writeAppend =>
    cases hf
    exact ⟨_, rfl⟩

theorem ne_zero_of_ofInt? {n : Int} (h : Number.ofInt? n = none) : n ≠ 0 := by
  rintro rfl
  cases h

theorem outcome_ofExcept_crash {r : Except Failure Value} {c : Crash} (h : r = .error (.crash c)) :
    ∃ m', (ofExcept r).outcome m = (.error (.failed (.crash c)), m') := by
  rw [h]
  exact ⟨m, rfl⟩

theorem Eval.outcome_setWorld_bind (w : World) (k : Unit → Eval α) (m : Machine) :
    (setWorld w >>= k).outcome m = (k ()).outcome { m with world := w } :=
  rfl

/-! What is too large for a float crashes the numeric functions. -/

theorem toFloat_of_none {n : Int} (hn : Number.ofInt? n = none) :
    toFloat (.int n) = .error (.crash .integerTooLarge) := by
  simp only [toFloat, intToFloat_of_none hn]
  rfl

theorem toFloat_of_readInteger {s : String} {n : Int} (hread : Number.readInteger s = .number n)
    (hn : Number.ofInt? n = none) : toFloat (.str s) = .error (.crash .integerTooLarge) := by
  have hnumber : readNumber s "float" = .ok (.inl n) := by
    unfold readNumber
    rw [hread]
  simp only [toFloat, hnumber]
  change (intToFloat n >>= fun x => pure (Value.float x)) = _
  rw [intToFloat_of_none hn]
  rfl

theorem quotient_of_ofQuotient? {a b : Int} (hb : b ≠ 0) (hrest : a % b ≠ 0)
    (hnone : Number.ofQuotient? a b = none) :
    Library.quotient (.int a) (.int b) = .error (.crash .integerTooLarge) := by
  simp [Library.quotient, toNumeric?, isZero, hb, hrest, hnone]

theorem quotient_int_float {n : Int} {x : Float} (hx : (x == 0) = false)
    (hn : Number.ofInt? n = none) :
    Library.quotient (.int n) (.float x) = .error (.crash .integerTooLarge) := by
  simp only [Library.quotient, toNumeric?, isZero, hx, numericToFloat, intToFloat_of_none hn]
  rfl

theorem quotient_float_int {x : Float} {n : Int} (hn : Number.ofInt? n = none) :
    Library.quotient (.float x) (.int n) = .error (.crash .integerTooLarge) := by
  have hzero : (n == 0) = false := by simpa using ne_zero_of_ofInt? hn
  simp only [Library.quotient, toNumeric?, isZero, hzero, numericToFloat, intToFloat_of_none hn]
  rfl

theorem squareRoot_of_none {n : Int} (hpos : 0 ≤ n) (hn : Number.ofInt? n = none) :
    squareRoot (.int n) = .error (.crash .integerTooLarge) := by
  have hsign : ¬n < 0 := by omega
  simp only [squareRoot, requireNumber, toNumeric?]
  change (if decide (n < 0) = true then _ else _) = _
  simp only [hsign, numericToFloat, intToFloat_of_none hn]
  rfl

variable [Host.Limits]

/-- An application that exceeds the host crashes. -/
theorem Native.Exceeds.outcome_apply {f : Native} {vs : List Value} {c : Crash}
    (h : f.Exceeds m vs c) :
    ∃ m', (f.apply vs).outcome m = (.error (.failed (.crash c)), m') := by
  cases h with
  | float hn => exact outcome_ofExcept_crash (toFloat_of_none hn)
  | floatOfText hread hn => exact outcome_ofExcept_crash (toFloat_of_readInteger hread hn)
  | quotient hb hrest hnone => exact outcome_ofExcept_crash (quotient_of_ofQuotient? hb hrest hnone)
  | quotientOfInt hx hn => exact outcome_ofExcept_crash (quotient_int_float hx hn)
  | quotientByInt hn => exact outcome_ofExcept_crash (quotient_float_int hn)
  | root hpos hn => exact outcome_ofExcept_crash (squareRoot_of_none hpos hn)
  | @document s c hs =>
    refine ⟨m, ?_⟩
    simp only [Native.apply, applyJson, jsonParse, hs]
    rfl
  | readName hs =>
    refine ⟨m, ?_⟩
    simp only [Native.apply, applyFile, readFile, pathOf, hs]
    rfl
  | @writeName f isAppended s v hf hs =>
    refine ⟨m, ?_⟩
    obtain ⟨function, happly⟩ := exists_writeFile hf (.str s) v
    simp only [Native.apply, happly, writeFile, pathOf, hs]
    rfl
  | @written f isAppended s v place opened hf hopens hmeets =>
    refine ⟨{ m with world := { m.world with files := opened } }, ?_⟩
    obtain ⟨function, happly⟩ := exists_writeFile hf (.str s) v
    have hshown : m.heap.display v = .error (.givenUp .unreadableText) :=
      display_givenUp_iff.mpr ⟨rfl, hmeets⟩
    simp only [Native.apply, happly, writeFile, pathOf, hopens.isText, if_true, pure_bind,
      outcome_world_bind, hopens.isPlace, hopens.isOpened, orBlame, outcome_setWorld_bind, display]
    change (ofCause (m.heap.display v) >>= _).outcome _ = _
    rw [hshown]
    rfl
  | print hmeets | input hmeets =>
    refine ⟨m, ?_⟩
    simp only [Native.apply, Builtin.apply, outcome_bind, outcome_displayAll,
      mapM_display_givenUp_iff.mpr ⟨rfl, hmeets⟩]
    rfl
  | @str n hn =>
    have hcrash : toStr m.heap (.int n) = .error (.crash .unreadableText) := by
      simp only [toStr, Heap.display, Heap.showInner, Heap.showNested,
        Number.writeInteger_of_not_isWritable hn]
      rfl
    exact outcome_ofExcept_crash hcrash
  | @deep a hdeep =>
    refine ⟨m, ?_⟩
    change (ofExcept (Json.ofValue m.heap stackLimit (.object a)) >>= _).outcome m = _
    rw [hdeep]
    rfl
  | @stringify a j hj hunwritable =>
    refine ⟨m, ?_⟩
    have hwrite : j.write = .error (.givenUp .unreadableText) := by
      rw [Json.write, hunwritable]
      rfl
    rw [Json.outcome_stringify hj, hwrite]
    rfl
  | @«at» a i hi =>
    refine ⟨m, ?_⟩
    change (ofCause (Number.writeInteger i) >>= _).outcome m = _
    rw [Number.writeInteger_of_not_isWritable hi]
    rfl
  | @push a item n hlength hn =>
    refine ⟨{ m with heap := (m.heap.copyValue item).2 }, ?_⟩
    refine (outcome_arrayAdd "push" Object.push a item m).trans ?_
    simp only [Object.push_givenUp_iff.mpr ⟨rfl, n, hlength, hn⟩]
    rfl
  | @pop a n hlength hpos hn =>
    refine ⟨m, ?_⟩
    refine (outcome_arrayTake "pop" Object.pop a m).trans ?_
    simp only [Object.pop_givenUp_iff.mpr ⟨rfl, n, hlength, hpos, hn⟩]
    rfl
  | content hs hread hdefect =>
    refine ⟨m, ?_⟩
    simp only [Native.apply, applyFile, readFile, pathOf, hs, if_true, pure_bind, outcome_world_bind,
      hread, orBlame, hdefect]
    rfl
  | command hs =>
    refine ⟨m, ?_⟩
    simp only [Native.apply, execute, hs]
    rfl
  | @printed s defect hs hlength hdefect =>
    refine ⟨{ m with world := m.world.adopt (m.world.shell m.world.files s).files }, ?_⟩
    simp only [Native.apply, execute, hs, hlength, if_false, Bool.not_true, Bool.false_eq_true,
      outcome_world_bind, outcome_setWorld_bind]
    generalize m.world.shell m.world.files s = result at hdefect ⊢
    rcases hdefect with hdefect | hdefect
    · rw [hdefect]
      rfl
    · rw [hdefect]
      cases decodeText result.output with
      | ok output => rfl
      | error _ => rfl
  | @library path name rest hs htexts =>
    obtain ⟨texts, htexts⟩ := Option.isSome_iff_exists.mp htexts
    refine ⟨m, ?_⟩
    simp only [Native.apply, foreignCall, textOf?, htexts, hs]
    rfl

/-- The application of a native function crashes exactly if it exceeds the host. -/
theorem Native.crashes_iff (f : Native) (vs : List Value) {c : Crash} :
    (∃ m', (f.apply vs).outcome m = (.error (.failed (.crash c)), m')) ↔ f.Exceeds m vs c :=
  ⟨fun ⟨m', hout⟩ => raises_native f vs _ m' hout, fun h => h.outcome_apply⟩

end Natives

end ModuLang
