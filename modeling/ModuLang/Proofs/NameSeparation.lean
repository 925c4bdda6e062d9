import ModuLang.Proofs.EvaluationConfinement
import ModuLang.Proofs.HeapEffects
import ModuLang.Proofs.TableLookup

/-!
# Names that share no object

The names of an environment are separate if no object is reached from two of them. No change of the
heap ends this: what a name reaches gets less, or it gets new objects, and these hang below one
object, which one name reaches at most. A clone of the environment has separate names as well,
because different objects have different copies. And a name may be bound to what is separate from
all other names, such as a copy.
-/

namespace ModuLang

open Eval

variable {permits : Permission} {h h' : Heap} {e : Environment} {v w : Value} {n : Nat}

/-- Whether no object is reached from two names of an environment. -/
def NamesSeparate (h : Heap) (e : Environment) : Prop :=
  ∀ x y v w, x ≠ y → e.get? x = some v → e.get? y = some w → Separate h v w

/-! ### Values -/

/-- A value that is no object shares none. -/
theorem separate_of_ne_object (hv : ∀ a, v ≠ .object a) : Separate h v w :=
  fun a _ _ ha => absurd ha (hv a)

/-- Objects on two sides of an address are separate. -/
theorem separate_of_lt_of_le (hv : ∀ a c, v = .object a → h.Reaches a c → n ≤ c)
    (hw : ∀ b c, w = .object b → h.Reaches b c → c < n) : Separate h v w :=
  fun a b c ha hb hac hbc => Nat.not_lt.mpr (hv a c ha hac) (hw b c hb hbc)

/-- A change of the heap does not lead from one of two separate values to the other. -/
theorem Separate.effect (hvw : Separate h v w) (he : Effect permits h h')
    (hheap : HeapKnown .clear h) (hv : Known .clear h.size v) (hw : Known .clear h.size w) :
    Separate h' v w := by
  rintro a b c rfl rfl hac hbc
  obtain ⟨graft, hx⟩ := he.extends hheap
  have hlt : ∀ {a}, Known .clear h.size (.object a) → h.Reaches a c → c < h.size := fun ha hac =>
    (hheap.reaches ha hac trivial).1
  -- Both reach it as before; or it is new, and both reach the object that it hangs below.
  rcases hx.reaches hheap (hv trivial).1 hac with hac | ⟨hnew, d, hd, had⟩
  · rcases hx.reaches hheap (hw trivial).1 hbc with hbc | ⟨hnew, -⟩
    · exact hvw a b c rfl rfl hac hbc
    · exact Nat.not_lt.mpr hnew (hlt hv hac)
  · rcases hx.reaches hheap (hw trivial).1 hbc with hbc | ⟨-, d', hd', hbd⟩
    · exact Nat.not_lt.mpr hnew (hlt hw hbc)
    · obtain rfl : d = d' := Option.some.inj (hd.symm.trans hd')
      exact hvw a b d rfl rfl had hbd

theorem Separate.effects (hvw : Separate h v w) (he : Effects permits h h')
    (hheap : HeapKnown .clear h) (hv : Known .clear h.size v) (hw : Known .clear h.size w) :
    Separate h' v w := by
  induction he with
  | refl => exact hvw
  | tail hbefore hstep ih =>
    have hkept := Effects.heapKept hbefore hheap
    exact ih.effect hstep hkept.known (hv.mono hkept.size) (hw.mono hkept.size)

theorem NamesSeparate.effects (hsep : NamesSeparate h e) (he : Effects permits h h')
    (hheap : HeapKnown .clear h) (henv : (knownEnv .clear).holds h.size e) : NamesSeparate h' e :=
  fun x y v w hxy hv hw => (hsep x y v w hxy hv hw).effects he hheap (knownEnv_get? henv hv)
    (knownEnv_get? henv hw)

/-! ### Copies -/

/-- The names of a clone are separate if those of the original are. -/
theorem NamesSeparate.clone (hsep : NamesSeparate h e) (hheap : HeapKnown .clear h)
    (henv : (knownEnv .clear).holds h.size e) : NamesSeparate (e.clone h).2 (e.clone h).1 := by
  intro x y v w hxy hv hw a b c ha hb hac hbc
  have horigin : ∀ {x v a}, (e.clone h).1.get? x = some v → v = .object a →
      ∃ d, e.get? x = some (.object d) ∧ d ∈ h.copied (e.vars.entries.map Prod.snd) ∧
        a = (h.copy (e.vars.entries.map Prod.snd)).1 d := by
    intro x v a hv ha
    have hget := e.vars.get?_map (Value.rename (h.copy (e.vars.entries.map Prod.snd)).1) x
    obtain ⟨u, hu, hrename⟩ := Option.map_eq_some_iff.mp (hget.symm.trans hv)
    have hmem : u ∈ e.vars.entries.map Prod.snd := List.mem_map.mpr ⟨_, Table.mem_of_get? hu, rfl⟩
    subst ha
    cases u with
    | object d =>
      have hd : Known .clear h.size (.object d) := knownEnv_get? henv hu
      exact ⟨d, hu, hd.mem_copied hmem rfl, (Value.object.inj hrename).symm⟩
    | _ => cases hrename
  obtain ⟨a', hx, ha', rfl⟩ := horigin hv ha
  obtain ⟨b', hy, hb', rfl⟩ := horigin hw hb
  have hthere : ∀ {d}, d ∈ h.copied (e.vars.entries.map Prod.snd) → ∀ c, h.Reaches d c → c < h.size :=
    fun hd c hdc => hheap.lt_of_reaches (Heap.reaches_of_mem_reachable hd).2 hdc
  obtain ⟨c₁, hc₁, hac₁, hcopy₁⟩ := Heap.exists_of_reaches_moved (hthere ha') ha' hac
  obtain ⟨c₂, hc₂, hbc₂, hcopy₂⟩ := Heap.exists_of_reaches_moved (hthere hb') hb' hbc
  -- A common object of the clone would be a copy of a common object.
  obtain rfl : c₁ = c₂ := Heap.moved_injective hc₁ hc₂ (hcopy₁.symm.trans hcopy₂)
  exact hsep x y _ _ hxy hx hy a' b' c₁ rfl rfl hac₁ hbc₂

/-- A copy is separate from all values there were. -/
theorem separate_copyValue (hheap : HeapKnown .clear h) (hv : Known .clear h.size v)
    (hw : Known .clear h.size w) : Separate (h.copyValue v).2 (h.copyValue v).1 w := by
  refine separate_of_lt_of_le (n := h.size) (fun a c ha hac => ?_) fun b c hb hbc => ?_
  · induction hac with
    | refl => exact Heap.le_of_copyValue hv ha
    | tail _ hcd ih => exact Heap.le_of_refersTo_copyValue hheap hv ih hcd
  · subst hb
    refine Heap.lt_of_reaches (fun d hd => Heap.get?_copyValue_of_lt hd) (fun d hbd => ?_) hbc
    exact (hheap.reaches hw hbd trivial).1

/-! ### Bindings -/

/-- A name may be bound to what is separate from all other names. -/
theorem NamesSeparate.define {name : String} (hsep : NamesSeparate h e)
    (hv : ∀ y w, y ≠ name → e.get? y = some w → Separate h v w) :
    NamesSeparate h (e.define name v) := by
  intro x y u w hxy hu hw
  rw [Environment.get?_define] at hu hw
  by_cases hx : x = name
  · subst hx
    rw [if_pos rfl] at hu
    rw [if_neg hxy.symm] at hw
    cases hu
    exact hv y w hxy.symm hw
  · rw [if_neg hx] at hu
    by_cases hy : y = name
    · subst hy
      rw [if_pos rfl] at hw
      cases hw
      exact (hv x u hx hu).symm
    · rw [if_neg hy] at hw
      exact hsep x y u w hxy hu hw

theorem get?_update_cases {members : List (String × Value)} {x : String}
    (hv : (e.update members).get? x = some v) : (x, v) ∈ members ∨ e.get? x = some v := by
  unfold Environment.update at hv
  induction members generalizing e with
  | nil => exact .inr hv
  | cons member rest ih =>
    rcases ih hv with hmem | hbound
    · exact .inl (List.mem_cons_of_mem _ hmem)
    · rw [Environment.get?_define] at hbound
      by_cases hx : x = member.1
      · rw [if_pos hx] at hbound
        have hmember : (x, v) = member := Prod.ext hx (Option.some.inj hbound).symm
        exact .inl (hmember ▸ List.mem_cons_self)
      · rw [if_neg hx] at hbound
        exact .inr hbound

/-- Names may be bound to values that are separate from each other and from all other names. -/
theorem NamesSeparate.update {members : List (String × Value)} (hsep : NamesSeparate h e)
    (hmembers : ∀ x v y w, x ≠ y → (x, v) ∈ members → (y, w) ∈ members → Separate h v w)
    (houter : ∀ x v y w, (x, v) ∈ members → e.get? y = some w → Separate h v w) :
    NamesSeparate h (e.update members) := by
  intro x y v w hxy hv hw
  rcases get?_update_cases hv with hv | hv
  · rcases get?_update_cases hw with hw | hw
    · exact hmembers x v y w hxy hv hw
    · exact houter x v y w hv hw
  · rcases get?_update_cases hw with hw | hw
    · exact (houter y w x v hw hv).symm
    · exact hsep x y v w hxy hv hw

end ModuLang
