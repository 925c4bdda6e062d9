import ModuLang.Proofs.FrameDiscipline
import ModuLang.Proofs.StatementBindings

/-!
# The names that nodes bind

A `let` and a `fn` bind their name in the environment at hand, and so does an import that gives one
object. A call binds the parameters of its function, in the environment of the body. All other names
that an environment has were bound before: a clone has those of the environment that it was made of,
and an import with `*` flattens what a file or a package had bound.

`BindsName` lists the names that one node binds; an evaluator that is interrupted at some points
makes it bind no others.
-/

namespace ModuLang

open Eval Host

variable {ev : Evaluator} {config : Config} {m : Machine}

/-- The name that an import gives to its object. -/
def chosenName (asName : Option String) (target : String) : String :=
  (asName.filter fun a => !a.isEmpty).getD (importedName target)

/-- The names that a node binds on a machine, by means of an evaluator for the nodes inside it. -/
inductive BindsName [Host.Limits] (ev : Evaluator) (config : Config) (m : Machine) :
    Node → String → Prop where
  | binding {name : String} {value : Node} {line : Int} {v : Value} {m' : Machine} :
      isReservedName name = false → (boundValue ev config value).outcome m = (.ok v, m') →
      BindsName ev config m (.binding name value line) name
  | definition {name : String} {params : List String} {body : List Node} {line : Int} :
      BindsName ev config m (.definition name params body line) name
  | parameter {node : Node} {call : UserCall} {callee start : Machine} {values : List Value}
      {body : Environment} {name : String} :
      Calls ev config m node call callee →
      (enterCall ev config call.name call.params call.args).outcome callee =
        (.ok (values, body), start) →
      name ∈ call.params → BindsName ev config m node name
  | importing {target : Quotation} {asName : Option String} {line : Int}
      {members : List (String × Value)} {m' : Machine} :
      (importedMembers ev config (Source.unquote target.raw)).outcome m = (.ok members, m') →
      asName ≠ some "*" →
      BindsName ev config m (.importing target asName line)
        (chosenName asName (Source.unquote target.raw))

/-! ### Evaluators that are interrupted -/

theorem sequential_boundValue (config : Config) (node : Node) :
    Sequential fun ev => boundValue ev config node := by
  cases node with
  | identifier source line =>
    exact sequential_const (boundValue (evaluate 0) config (.identifier source line))
  | _ => exact (sequential_ask config _).bind fun value => sequential_const _

theorem sequential_importedMembers [Host.Limits] (config : Config) (target : String) :
    Sequential fun ev => importedMembers ev config target :=
  (sequential_loadFile config target).ite (sequential_const _)

theorem sequential_enterCall (config : Config) (name : String) (params : List String)
    (args : List Node) : Sequential fun ev => enterCall ev config name params args := by
  refine (sequential_const _).bind fun _ => (sequential_const _).bind fun e => ?_
  refine (sequential_const _).bind fun callEnv => Sequential.bind ?_ fun values => ?_
  · refine (sequential_const _).bind fun argEnv => ?_
    exact (sequential_evaluateAll config args).inside argEnv
  · exact (sequential_const _).bind fun bodyEnv => sequential_const _

section StopAt

variable {node : Node} {B : Point → Prop} {i : Interrupt} {leave : Point → Machine}
  (hi : i.Uncaught)

include hi

theorem Calls.of_stopAt {call : UserCall} {callee : Machine}
    (h : Calls (ev.stopAt B i leave) config m node call callee) :
    Calls ev config m node call callee := by
  cases h with
  | named hname => exact .named hname
  | property hmember => exact .property ((sequential_memberOf config _ _).eq_of_stopAt_ok hi hmember)

/-- What is bound by means of an evaluator that is interrupted at some points is bound without the
interrupts as well. -/
theorem BindsName.of_stopAt [Host.Limits] {name : String}
    (h : BindsName (ev.stopAt B i leave) config m node name) : BindsName ev config m node name := by
  cases h with
  | binding hname hvalue =>
    exact .binding hname ((sequential_boundValue config _).eq_of_stopAt_ok hi hvalue)
  | definition => exact .definition
  | parameter hcall hstart hname =>
    exact .parameter (hcall.of_stopAt hi)
      ((sequential_enterCall config _ _ _).eq_of_stopAt_ok hi hstart) hname
  | importing hmembers hasName =>
    exact .importing ((sequential_importedMembers config _).eq_of_stopAt_ok hi hmembers) hasName

end StopAt

end ModuLang
