/-!
# The limits of a host

Reading a program, evaluating it, and reading and making a document all go down into what they are
about, and a host can follow them only so far; beyond that its stack overflows. How far is up to the
host, so the number of levels is a parameter of everything that goes down in this way. Copying and
showing values go down as well; they are taken never to come to the limit.
-/

namespace ModuLang.Host

/-- The limits of a host. -/
class Limits where
  /-- The number of levels that the host can follow. -/
  levels : Nat
  /-- The host can follow a program that is not nested much. -/
  enough : 32 ≤ levels

/-- The limits of a host as it is set up. -/
instance Limits.standard : Limits := ⟨900, by decide⟩

end ModuLang.Host

namespace ModuLang

/-- The number of levels that the host can follow. -/
def stackLimit [Host.Limits] : Nat :=
  Host.Limits.levels

theorem exists_stackLimit_eq [Host.Limits] : ∃ more, stackLimit = more + 32 :=
  ⟨stackLimit - 32, (Nat.sub_add_cancel Host.Limits.enough).symm⟩

end ModuLang
