import ModuLang.Proofs.HeldConditions

/-!
# What a program on the server holds

A program gets its native functions from its first environment and from imports, and both depend on
whether it runs on the server. There it gets none that touches files, and none that ends the run or
reads the input without being refused. Nothing makes a native function out of anything else, so a
program that holds only functions that are served goes on to hold only these. In particular a run on
the server is never exited.
-/

namespace ModuLang

open Eval

/-- Whether a program on the server may hold a native function. -/
def Native.Served : Native → Prop
  | .file _ | .builtin (.input false) | .builtin (.exit false) => False
  | _ => True

/-- Whether a program on the server may hold a value. -/
def Value.Served : Value → Prop
  | .native f => f.Served
  | .function _ _ body => ∀ node ∈ body, node.Plain
  | _ => True

theorem Value.served_of_isPrimitive {v : Value} (hv : v.IsPrimitive) : v.Served := by
  cases v with
  | function | native => exact hv.elim
  | _ => trivial

theorem served_byName {fs : List Native} (hfs : ∀ f ∈ fs, f.Served) :
    ∀ member ∈ byName fs, member.2.Served := by
  intro member hmember
  obtain ⟨f, hf, rfl⟩ := List.mem_map.mp hmember
  exact hfs f hf

/-- A package that may be imported on the server has no function that touches files. -/
theorem served_importable {config : Config} (hserver : config.onServer = true) {name : String}
    {members : List (String × Value)} (h : importable? config name = some members) :
    ∀ member ∈ members, member.2.Served := by
  unfold importable? at h
  rw [hserver, Bool.true_and] at h
  split at h
  · cases h
  · next hrefused =>
    unfold packageMembers? at h
    split at h
    · cases h
      intro member hmember
      rcases List.mem_append.mp hmember with hmember | hmember
      · exact served_byName (by simp [Native.Served]) member hmember
      · rcases List.mem_cons.mp hmember with rfl | hmember
        · trivial
        · rw [List.mem_singleton.mp hmember]
          trivial
    · exact absurd rfl hrefused
    all_goals first
      | (cases h; exact served_byName (by simp [Native.Served]))
      | cases h

/-- The condition on what a program on the server holds. -/
def Condition.served : Condition where
  value := Value.Served
  name _ := True
  node := Node.Plain
  config c := c.onServer = true
  exits := False
  computable := ⟨fun _ hv _ => Value.served_of_isPrimitive hv, fun _ _ => trivial⟩
  object _ := trivial
  method := trivial
  function _ _ _ := Iff.rfl
  literal _ _ h := Value.served_of_isPrimitive h.primitive
  child _ _ h hc := h.children hc
  withScript _ _ h := h
  importable _ _ _ h hmembers member hmember := ⟨trivial, served_importable h hmembers member hmember⟩

instance [Host.Limits] : Condition.served.Open where
  name _ := trivial
  parsed := Source.parse_plain

/-- Evaluation on the server keeps to what is served. -/
theorem served_evaluate [Host.Limits] (levels : Nat) : Condition.served.Keeping
    (evaluate levels) := by
  induction levels with
  | zero => exact fun config node m _ _ => Condition.stays_crash _
  | succ levels ih =>
    intro config node m hserver hnode
    refine (Condition.stays_evaluateNode ih hserver hnode
      (.of_open (fun _ _ => trivial) ?_)).atLine _
    intro f vs m' happlies hf hvs
    refine Condition.stays_native f hvs (fun _ _ => trivial) ?_
    -- The function that ends the run is served only where it refuses to be called.
    rintro onServer rfl
    cases onServer with
    | false => exact hf
    | true => cases happlies.accepted.1

/-- The builtins of a program on the server are served. -/
theorem served_newSession {config : Config} (hserver : config.onServer = true) (world : Host.World) :
    Condition.served.Holds (Session.new config world).machine := by
  refine ⟨Environment.allBindings_empty.update fun binding hbinding => ⟨trivial, ?_⟩, Heap.all_empty⟩
  obtain ⟨f, hf, rfl⟩ := List.mem_map.mp hbinding
  rw [hserver] at hf
  simp only [List.mem_cons, List.not_mem_nil, or_false] at hf
  rcases hf with rfl | rfl | rfl | rfl | rfl | rfl <;> trivial

/-- A run on the server is never exited. -/
theorem runProgram_ne_exited [Host.Limits] {config : Config} (hserver : config.onServer = true)
    (world : Host.World) (source : String) :
    ((runProgram config source).outcome (Session.new config world).machine).1 ≠ .error .exited := by
  have hstays := Condition.stays_runTopLevel (m := (Session.new config world).machine)
    (served_evaluate stackLimit) hserver (Source.parse source).failure 0 (Source.parse_plain source)
  obtain ⟨-, hends⟩ := hstays (served_newSession hserver world)
  intro hexited
  have hrun : (runTopLevel (evaluate stackLimit) config (Source.parse source).failure 0
      (Source.parse source).statements).outcome (Session.new config world).machine =
      (runProgram config source).outcome (Session.new config world).machine := rfl
  rw [hrun, hexited] at hends
  exact hends

end ModuLang
