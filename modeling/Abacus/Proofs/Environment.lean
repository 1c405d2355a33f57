import Abacus.Environment

/-!
# Proofs/Environment — looking names up after a change

Binding, unbinding and giving back a binding change what one name is bound to, and nothing else.
Giving a name back the binding that it has is no change at all, and it undoes whatever the name was
bound to in between (`restore_get?`, `restore_set`).
-/

namespace Abacus

namespace Bindings

theorem get?_set_self : ∀ (bs : Bindings) (name : String) (e : Expr),
    (bs.set name e).get? name = some e
  | [], name, e => by simp [set, get?]
  | (key, old) :: rest, name, e => by
      rw [set]
      split
      · next h => simp [get?, h]
      · next h => simp [get?, h, get?_set_self rest name e]

theorem get?_set_of_ne {name other : String} (h : other ≠ name) (e : Expr) :
    ∀ bs : Bindings, (bs.set name e).get? other = bs.get? other
  | [] => by simp [set, get?, h.symm]
  | (key, old) :: rest => by
      rw [set]
      split
      · next hk =>
          subst hk
          simp [get?, h.symm]
      · simp [get?, get?_set_of_ne h e rest]

theorem get?_erase_self (name : String) : ∀ bs : Bindings, (bs.erase name).get? name = none
  | [] => rfl
  | (key, e) :: rest => by
      have ih : get? (rest.filter fun b => b.1 ≠ name) name = none := get?_erase_self name rest
      rw [erase, List.filter_cons]
      split
      · next hk => simpa [get?, show key ≠ name by simpa using hk] using ih
      · exact ih

theorem get?_erase_of_ne {name other : String} (h : other ≠ name) :
    ∀ bs : Bindings, (bs.erase name).get? other = bs.get? other
  | [] => rfl
  | (key, e) :: rest => by
      have ih : get? (rest.filter fun b => b.1 ≠ name) other = get? rest other :=
        get?_erase_of_ne h rest
      rw [erase, List.filter_cons]
      split
      · rw [get?, get?, ih]
      · next hk =>
          obtain rfl : key = name := by simpa using hk
          rw [ih, get?, if_neg h.symm]

theorem set_set (name : String) (e e' : Expr) :
    ∀ bs : Bindings, (bs.set name e).set name e' = bs.set name e'
  | [] => by simp [set]
  | (key, old) :: rest => by
      by_cases h : key = name
      · simp [set, h]
      · simp [set, h, set_set name e e' rest]

theorem set_get? {name : String} {e : Expr} :
    ∀ {bs : Bindings}, bs.get? name = some e → bs.set name e = bs
  | (key, old) :: rest, h => by
      rw [get?] at h
      by_cases hk : key = name
      · rw [if_pos hk] at h
        rw [set, if_pos hk, Option.some.inj h]
      · rw [if_neg hk] at h
        rw [set, if_neg hk, set_get? h]

theorem erase_set (name : String) (e : Expr) :
    ∀ bs : Bindings, (bs.set name e).erase name = bs.erase name
  | [] => by simp [set, erase]
  | (key, old) :: rest => by
      have ih : (set rest name e).filter (fun b => b.1 ≠ name)
          = rest.filter (fun b => b.1 ≠ name) := erase_set name e rest
      by_cases h : key = name
      · simp [set, erase, h]
      · simpa [set, erase, h] using ih

theorem erase_of_get?_eq_none {name : String} :
    ∀ {bs : Bindings}, bs.get? name = none → bs.erase name = bs
  | [], _ => rfl
  | (key, e) :: rest, h => by
      have hk : key ≠ name := by
        rintro rfl
        simp [get?] at h
      rw [get?, if_neg hk] at h
      have ih : rest.filter (fun b => b.1 ≠ name) = rest := erase_of_get?_eq_none h
      rw [erase, List.filter_cons_of_pos (by simpa using hk), ih]

/-- The names that are bound. -/
def names (bs : Bindings) : List String :=
  bs.map Prod.fst

theorem names_set (name : String) (e : Expr) : ∀ bs : Bindings,
    (bs.set name e).names = if name ∈ bs.names then bs.names else bs.names ++ [name]
  | [] => by simp [set, names]
  | (key, old) :: rest => by
    have ih := names_set name e rest
    by_cases hk : key = name
    · simp [set, names, hk]
    · rw [names] at ih
      by_cases hmem : name ∈ rest.map Prod.fst
      · simp [set, names, hk, ih, hmem]
      · simp [set, names, hk, ih, hmem, Ne.symm hk]

theorem names_erase (name : String) (bs : Bindings) :
    (bs.erase name).names = bs.names.filter fun other => other ≠ name := by
  simp [erase, names, List.filter_map, Function.comp_def]

theorem mem_names_of_get? {name : String} {e : Expr} :
    ∀ {bs : Bindings}, bs.get? name = some e → name ∈ bs.names
  | (key, old) :: rest, h => by
      rw [get?] at h
      by_cases hk : key = name
      · exact List.mem_cons.mpr (.inl hk.symm)
      · rw [if_neg hk] at h
        exact List.mem_cons_of_mem key (mem_names_of_get? h)

end Bindings

namespace Environment

variable (env : Environment) {name other : String}

@[simp] theorem context_set (name : String) (e : Expr) : (env.set name e).context = env.context :=
  rfl

@[simp] theorem context_restore (name : String) (saved : Option Expr) :
    (env.restore name saved).context = env.context := by
  cases saved <;> rfl

@[simp] theorem get?_set_self (name : String) (e : Expr) : (env.set name e).get? name = some e :=
  Bindings.get?_set_self env.bindings name e

theorem get?_set_of_ne (h : other ≠ name) (e : Expr) :
    (env.set name e).get? other = env.get? other :=
  Bindings.get?_set_of_ne h e env.bindings

@[simp] theorem get?_restore_self (name : String) (saved : Option Expr) :
    (env.restore name saved).get? name = saved := by
  cases saved with
  | none => exact Bindings.get?_erase_self name env.bindings
  | some e => exact get?_set_self env name e

theorem get?_restore_of_ne (h : other ≠ name) (saved : Option Expr) :
    (env.restore name saved).get? other = env.get? other := by
  cases saved with
  | none => exact Bindings.get?_erase_of_ne h env.bindings
  | some e => exact get?_set_of_ne env h e

@[simp] theorem set_set (name : String) (e e' : Expr) :
    (env.set name e).set name e' = env.set name e' :=
  congrArg (Environment.mk · env.context) (Bindings.set_set name e e' env.bindings)

/-- **Giving a binding back undoes a binding in between.** -/
@[simp] theorem restore_set (name : String) (e : Expr) (saved : Option Expr) :
    (env.set name e).restore name saved = env.restore name saved := by
  cases saved with
  | none => exact congrArg (Environment.mk · env.context) (Bindings.erase_set name e env.bindings)
  | some e' => exact set_set env name e e'

/-- **Giving a name back the binding that it has changes nothing.** -/
@[simp] theorem restore_get? (name : String) : env.restore name (env.get? name) = env := by
  cases h : env.get? name with
  | none =>
    exact congrArg (Environment.mk · env.context) (Bindings.erase_of_get?_eq_none h)
  | some e => exact congrArg (Environment.mk · env.context) (Bindings.set_get? h)

end Environment

end Abacus
