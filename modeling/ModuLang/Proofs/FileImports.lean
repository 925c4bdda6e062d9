import ModuLang.Proofs.CallIsolation
import ModuLang.Proofs.FrameDiscipline
import ModuLang.Proofs.StatementBindings
import ModuLang.Proofs.TableLookup

/-!
# Imports of files

The import of a file is all or nothing. The file runs in a clone of the environment, so the boundary
that hides all objects there were is kept while it runs, and the environment itself is not touched
before the file has ended well. Then it gets one object with the exports of the file, or the exports
themselves.

What is exported is what the statements of the file bound in their own environment, in the order in
which the names were first bound and with the values that were bound last. This comes from two lists
that say the same: the names that the environment remembers, and the bindings that the statements
make.
-/

namespace ModuLang

open Eval Host

variable {ev : Evaluator} {config : Config} {m m' : Machine}

/-! ### What an environment remembers -/

namespace Environment

theorem update_concat (e : Environment) (bindings : List (String × Value))
    (binding : String × Value) :
    e.update (bindings ++ [binding]) = (e.update bindings).define binding.1 binding.2 := by
  rw [update_append]
  rfl

theorem vars_update (e : Environment) (bindings : List (String × Value)) :
    (e.update bindings).vars = e.vars.insertAll bindings := by
  induction bindings using List.reverseRecOn with
  | nil => rfl
  | append_singleton bindings binding ih =>
    rw [update_concat, Table.insertAll_concat, ← ih]
    rfl

/-- An environment remembers the names in the order in which they were first bound. -/
theorem bound_update {e : Environment} (he : e.bound = []) (bindings : List (String × Value)) :
    (e.update bindings).bound = (bindings.map Prod.fst).eraseDups := by
  induction bindings using List.reverseRecOn with
  | nil => exact he
  | append_singleton bindings binding ih =>
    rw [update_concat, define, ih, List.map_append, List.map_singleton, Table.eraseDups_concat]
    simp only [List.contains_iff_mem, List.mem_eraseDups]

/-- What was bound since an environment was made: each name once, in the order of the first bindings,
and with the last value. -/
theorem boundSinceCreation_update {e : Environment} (he : e.bound = [])
    (bindings : List (String × Value)) :
    (e.update bindings).boundSinceCreation = Table.lastEntries bindings := by
  unfold boundSinceCreation Table.lastEntries
  rw [bound_update he]
  refine List.filterMap_congr fun name hname => ?_
  -- A name that is remembered is among the bindings, so its value is one of theirs.
  have hfound : ((bindings.reverse).lookup name).isSome := by
    obtain ⟨binding, hbinding, rfl⟩ := List.mem_map.mp (List.mem_eraseDups.mp hname)
    rw [List.lookup_isSome_iff]
    exact ⟨binding, List.mem_reverse.mpr hbinding, beq_self_eq_true _⟩
  obtain ⟨v, hv⟩ := Option.isSome_iff_exists.mp hfound
  have hget : (e.update bindings).get? name = some v := by
    rw [get?, vars_update, Table.get?_insertAll, hv]
    rfl
  rw [hget, hv]

end Environment

/-! ### What a file exports -/

/-- The bindings that the statements of a file make in their own environment, in order. -/
def moduleBindings [Host.Limits] (levels : Nat) (config : Config) (m : Machine) (path : Path)
    (text : String) :
    List (String × Value) :=
  bindingsAlong (evaluate levels (config.withScript path)) (fun _ m => m)
    (bindingsOf levels (config.withScript path)) (Source.parse text).statements (moduleStart m path)

theorem outcome_of_blameFile_ok {α : Type} {path : Path} {x : Eval α} {a : α}
    (h : (blameFile path x).outcome m = (.ok a, m')) : x.outcome m = (.ok a, m') := by
  refine outcome_of_tryCatch_eq_ok h fun i m₁ hi => ?_
  split at hi
  · split at hi <;> cases hi
  · cases hi

section

variable [Host.Limits]

/-- A file that is run to its end has run its statements in a new frame. -/
theorem exists_of_runModule {path : Path} {text : String}
    (h : (runModule ev config path text).outcome m = (.ok (), m')) :
    ∃ final, (runStatements ev config (Source.parse text).failure
        (Source.parse text).statements).outcome
          { m with frames := ⟨path.name, false, 0⟩ :: m.frames } = (.ok (), final) ∧
      m' = { final with frames := final.frames.tail } := by
  have hframe := outcome_of_blameFile_ok h
  by_cases hfull : config.maxCallDepth ≤ m.frames.length
  · rw [outcome_inFrame_of_full hfull] at hframe
    cases hframe
  · rw [outcome_inFrame_of_room hfull] at hframe
    obtain ⟨hresult, hmachine⟩ := Prod.mk.inj hframe
    exact ⟨_, Prod.ext hresult rfl, hmachine.symm⟩

/-- Whether a target names a file whose statements end well, and what it exports then: the names that
they bound, each once and in the order of the first bindings, with the values that were bound last. -/
def Exports (levels : Nat) (config : Config) (m : Machine) (target : String)
    (exports : List (String × Value)) : Prop :=
  ∃ path text final, NamesFile config m.world target path text ∧
    (runStatements (evaluate levels) (config.withScript path) (Source.parse text).failure
      (Source.parse text).statements).outcome (moduleStart m path) = (.ok (), final) ∧
    exports = Table.lastEntries (moduleBindings levels config m path text)

theorem exports_of_loadFile {levels : Nat} {target : String} {members : List (String × Value)}
    (h : (loadFile (evaluate levels) config target).outcome m = (.ok members, m')) :
    Exports levels config m target members := by
  rcases namesFile_or_refused config m.world target with ⟨path, text, hfile⟩ | ⟨failure, hrefused⟩
  · rw [hfile.outcome_loadFile] at h
    obtain ⟨m₁, hinside, -⟩ := exists_of_inside h
    obtain ⟨_, m₂, hmodule, hbound⟩ := outcome_bind_eq_ok hinside
    obtain ⟨final, hrun, rfl⟩ := exists_of_runModule hmodule
    cases hbound
    refine ⟨path, text, final, hfile, hrun, ?_⟩
    have henv := env_of_runStatements
      (fun s hs => (Source.parse_statements text s hs).bindsAs levels (config.withScript path)) hrun
    rw [henv]
    -- A clone remembers no names yet.
    exact Environment.boundSinceCreation_update rfl _
  · rw [hrefused.outcome_loadFile] at h
    cases h

/-! ### What an import may change -/

/-- The import of a file keeps the boundary that hides all objects there were. -/
theorem keeps_loadFile_below {E : EnvRule} (config : Config) (target : String) (hm : m.WellFormed)
    (hev : Complies (.below m.heap.size) ev ev) :
    Keeps (.below m.heap.size) E m (loadFile ev config target) (loadFile ev config target)
      fun n members => ∀ member ∈ members, Known (.below m.heap.size) n member.2 := by
  rcases namesFile_or_refused config m.world target with ⟨path, text, hfile⟩ | ⟨failure, hrefused⟩
  · have hclone : Keeps (.below m.heap.size) E m
        (clone m.env >>= fun moduleEnv => inside moduleEnv do
          runModule ev (config.withScript path) path text
          return (← env).boundSinceCreation)
        (clone m.env >>= fun moduleEnv => inside moduleEnv do
          runModule ev (config.withScript path) path text
          return (← env).boundSinceCreation)
        fun n members => ∀ member ∈ members, Known (.below m.heap.size) n member.2 := by
      refine (keeps_clone_below hm.copied hm.knownEnv).bind fun moduleEnv m₁ _ hmodule => ?_
      refine keeps_inside hmodule ((keeps_runModule hev path text).bind fun _ m₂ _ _ => ?_)
      exact keeps_env.bind fun e m₃ _ he => keeps_pure (knownEnv_boundSinceCreation he)
    exact hclone.congr (hfile.outcome_loadFile ev)
  · exact .of_outcome (hrefused.outcome_loadFile ev) trivial

/-- Whether an environment got what a file exports, and nothing else: the exports themselves with the
name `*`, and else one new object whose properties they are. -/
def BindsExports (asName : Option String) (stem : String) (exports : List (String × Value))
    (m m' : Machine) : Prop :=
  if asName = some "*" then m'.env = m.env.update exports
  else ∃ b o, m.heap.size ≤ b ∧ m'.heap.get? b = some o ∧ o.properties.entries = exports ∧
    o.methods = [] ∧ o.isArray = false ∧
    m'.env = m.env.define ((asName.filter fun a => !a.isEmpty).getD stem) (.object b)

theorem bindsExports_bindImport {levels : Nat} {asName : Option String} {target stem : String}
    {exports : List (String × Value)} (hexports : Exports levels config m target exports)
    (henv : m'.env = m.env) (hsize : m.heap.size ≤ m'.heap.size) :
    BindsExports asName stem exports m ((bindImport asName stem exports).outcome m').2 := by
  obtain ⟨path, text, final, -, -, rfl⟩ := hexports
  rw [outcome_bindImport, BindsExports, importBindings, importHeap]
  by_cases hstar : asName = some "*"
  · simp only [hstar, beq_self_eq_true, if_true, henv]
  · simp only [hstar, beq_eq_false_iff_ne.mpr hstar, if_false, Bool.false_eq_true, henv]
    refine ⟨_, _, hsize, Heap.get?_alloc_self _, ?_, rfl, rfl, rfl⟩
    rw [← Table.entries_ofList]
    exact Table.entries_ofList_entries _

end

theorem outcome_atLine_ok {α : Type} {x : Eval α} {a : α} (line : Int)
    (h : x.outcome m = (.ok a, m')) : (atLine line x).outcome m = (.ok a, m') := by
  rw [atLine, outcome_tryCatch, h]

theorem exists_outcome_atLine_error {α : Type} {x : Eval α} {i : Interrupt} (line : Int)
    (h : x.outcome m = (.error i, m')) : ∃ i', (atLine line x).outcome m = (.error i', m') := by
  rw [atLine, outcome_tryCatch, h]
  simp only
  split <;> exact ⟨_, rfl⟩

/-- Binding what an import gives keeps the objects there were. -/
theorem get?_importHeap {asName : Option String} {members : List (String × Value)} {h : Heap}
    {a : Address} (ha : a < h.size) : (importHeap asName members h).get? a = h.get? a := by
  unfold importHeap
  split
  · rfl
  · exact Heap.get?_alloc_of_lt _ ha

/-- The import of a file is all or nothing. However it ends, every object that could be reached from
the environment is as before. If it fails, so is the environment, with its names, their order and
their values. If it ends well, the environment got what the file exports, and nothing else. -/
theorem file_import_all_or_nothing [Host.Limits] (levels : Nat) (config : Config)
    (target : Quotation) (asName : Option String) (line : Int) (hm : m.WellFormed)
    (hextension : (Source.unquote target.raw).endsWith sourceExtension = true) :
    ∃ result m', (evaluate levels config (.importing target asName line)).outcome m = (result, m') ∧
      (∀ a, m.EnvReaches a → m'.heap.get? a = m.heap.get? a) ∧
      match result with
      | .error _ => m'.env = m.env ∧ ∀ a, m'.EnvReaches a ↔ m.EnvReaches a
      | .ok value => value = .null ∧ ∃ inner exports, levels = inner + 1 ∧
        Exports inner config m (Source.unquote target.raw) exports ∧
        BindsExports asName (Path.ofString (Source.unquote target.raw)).stem exports m m' := by
  have hsame : ∀ {m' : Machine}, m'.env = m.env →
      (∀ a, m.EnvReaches a → m'.heap.get? a = m.heap.get? a) →
      m'.env = m.env ∧ ∀ a, m'.EnvReaches a ↔ m.EnvReaches a :=
    fun henv hobjects => ⟨henv, fun a => Machine.envReaches_iff henv hobjects⟩
  cases levels with
  | zero => exact ⟨_, m, rfl, fun _ _ => rfl, hsame rfl fun _ _ => rfl⟩
  | succ levels =>
    -- The file runs behind the boundary, and what it exports is bound only where it ended well.
    obtain ⟨-, hkept⟩ := keeps_loadFile_below (E := sameEnv m.env) config
      (Source.unquote target.raw) hm (complies_evaluate _ levels) (heapKnown_below m.heap) rfl
    have hnode := outcome_importing_file (m := m) (evaluate levels) config target asName line
      hextension
    revert hkept
    rcases hload : (loadFile (evaluate levels) config (Source.unquote target.raw)).outcome m with
      ⟨failed | exports, m₁⟩
    · intro hkept
      have hobjects : ∀ a, m.EnvReaches a → m₁.heap.get? a = m.heap.get? a := fun a ha =>
        hkept.grows.hidden trivial a (hm.lt_size ha)
      obtain ⟨i, hfails⟩ := exists_outcome_atLine_error line
        (hnode.trans (outcome_bind_error hload))
      exact ⟨_, m₁, hfails, hobjects, hsame hkept.env hobjects⟩
    · intro hkept
      have hends : (evaluate (levels + 1) config (.importing target asName line)).outcome m =
          (.ok .null, ((bindImport asName (Path.ofString (Source.unquote target.raw)).stem
            exports).outcome m₁).2) := by
        refine outcome_atLine_ok line (hnode.trans ?_)
        rw [outcome_bind, hload]
        simp only
        rw [outcome_bind, outcome_bindImport]
        rfl
      have hexports : Exports levels config m (Source.unquote target.raw) exports :=
        exports_of_loadFile hload
      refine ⟨_, _, hends, fun a ha => ?_, rfl, levels, exports, rfl, hexports,
        bindsExports_bindImport hexports hkept.env hkept.grows.size⟩
      rw [outcome_bindImport]
      refine (get?_importHeap (Nat.lt_of_lt_of_le (hm.lt_size ha) hkept.grows.size)).trans ?_
      exact hkept.grows.hidden trivial a (hm.lt_size ha)

/-! ### A file that is imported -/

/-- A file that binds one name twice, and another one in between. -/
def rebindingFile : String := "let x = true\nlet y = o\nlet x = false"

/-- A machine with an object `o`, in a world with the file. -/
def importingMachine : Machine where
  env := .ofList [("o", .object 0)]
  heap := ⟨#[{}]⟩
  world := { files := { entries := [(["a.modu"], .file rebindingFile.toUTF8.data.toList)] } }

theorem importingMachine_wellFormed : importingMachine.WellFormed where
  bindings := by
    intro binding hbinding
    rw [List.mem_singleton.mp hbinding]
    exact Nat.zero_lt_one
  objects := by
    intro a _ entry hentry
    have hempty : importingMachine.heap.get a = {} := by
      rcases a with _ | a <;> rfl
    rw [hempty] at hentry
    exact absurd hentry List.not_mem_nil

theorem parse_rebindingFile : Source.parse rebindingFile =
    ⟨[.binding "x" (.literal (.bool true) 1) 1, .binding "y" (.identifier "o" 2) 2,
      .binding "x" (.literal (.bool false) 3) 3], none⟩ := by
  have htokens : Source.tokenize rebindingFile =
      ([⟨.letWord, "let", 1⟩, ⟨.identifier, "x", 1⟩, ⟨.assign, "=", 1⟩, ⟨.boolean, "true", 1⟩,
        ⟨.newline, "\n", 1⟩, ⟨.letWord, "let", 2⟩, ⟨.identifier, "y", 2⟩, ⟨.assign, "=", 2⟩,
        ⟨.identifier, "o", 2⟩, ⟨.newline, "\n", 2⟩, ⟨.letWord, "let", 3⟩, ⟨.identifier, "x", 3⟩,
        ⟨.assign, "=", 3⟩, ⟨.boolean, "false", 3⟩, ⟨.newline, "\n", 3⟩], none) := by
    decide +kernel
  unfold Source.parse
  rw [htokens]
  cbv

theorem namesFile_rebindingFile : NamesFile {} importingMachine.world "a.modu"
    ⟨"/", ["a.modu"]⟩ rebindingFile where
  isHostText := by decide +kernel
  path_eq := by decide +kernel
  text_eq := ⟨rebindingFile.toUTF8.data.toList, by decide +kernel, by decide +kernel⟩

/-- The machine where the file is imported under its own name. -/
def importedMachine : Machine :=
  { importingMachine with
    env := importingMachine.env.define "a" (.object 3)
    heap := ⟨#[{}, {}, {}, { properties := .ofList [("x", .bool false), ("y", .object 2)] }]⟩ }

theorem outcome_import_rebindingFile :
    (evaluate 9 {} (.importing ⟨"\"a.modu\"", 1⟩ none 1)).outcome importingMachine =
      (.ok .null, importedMachine) := by
  have hnode := outcome_importing_file (m := importingMachine) (evaluate 8) {}
    ⟨"\"a.modu\"", 1⟩ none 1 (by decide +kernel)
  have hname : Source.unquote "\"a.modu\"" = "a.modu" := by decide +kernel
  have hstem : (Path.ofString "a.modu").stem = "a" := by decide +kernel
  refine outcome_atLine_ok 1 (hnode.trans ?_)
  rw [hname, hstem, outcome_bind, namesFile_rebindingFile.outcome_loadFile]
  unfold runModule
  rw [parse_rebindingFile]
  cbv

/-- The file exports its two names in the order in which it binds them, the first one with the value
that it has at the end; and the object `o` is as before. -/
theorem import_of_rebindingFile :
    ∃ m', (evaluate 9 {} (.importing ⟨"\"a.modu\"", 1⟩ none 1)).outcome importingMachine =
        (.ok .null, m') ∧
      m'.env = importingMachine.env.define "a" (.object 3) ∧
      Exports 8 {} importingMachine "a.modu" [("x", .bool false), ("y", .object 2)] ∧
      m'.heap.get? 0 = some {} := by
  have ho : importingMachine.EnvReaches 0 := ⟨("o", .object 0), List.mem_cons_self, 0, rfl, .refl⟩
  have hname : Source.unquote "\"a.modu\"" = "a.modu" := by decide +kernel
  obtain ⟨result, m', hrun, hobjects, hends⟩ := file_import_all_or_nothing
    9 {} ⟨"\"a.modu\"", 1⟩ none 1 importingMachine_wellFormed (by decide +kernel)
  cases hrun.symm.trans outcome_import_rebindingFile
  obtain ⟨-, inner, exports, hlevels, hexports, hbinds⟩ := hends
  obtain rfl : 8 = inner := Nat.succ.inj hlevels
  rw [hname] at hexports
  rw [BindsExports, if_neg (by simp)] at hbinds
  obtain ⟨b, o, -, hb, rfl, -, -, henv⟩ := hbinds
  -- The object that has the exports is the one that the name is bound to.
  have hbound : importedMachine.env.get? "a" = some (.object b) := by
    have hstem : (Path.ofString "a.modu").stem = "a" := by decide +kernel
    rw [henv, hname, hstem]
    exact (Environment.get?_define _ _ _ _).trans (if_pos rfl)
  obtain rfl : 3 = b := Value.object.inj (Option.some.inj hbound)
  obtain rfl : { properties := .ofList [("x", .bool false), ("y", .object 2)] } = o :=
    Option.some.inj hb
  exact ⟨importedMachine, hrun, rfl, hexports, hobjects 0 ho⟩

end ModuLang
