import Mathlib

/-!
# Linked lists

A linked list is given by a successor function on its cells. `Linked next p l` says that following
`next` from `p` visits the cells `l` and then ends. Writing the successor of a cell that is not
visited changes nothing, and writing that of a visited one replaces what comes after it.
-/

variable {α : Type*}

/-- Following `next` from `p` visits the cells of the list. -/
def Linked (next : α → Option α) : Option α → List α → Prop
  | p, [] => p = none
  | p, a :: l => p = some a ∧ Linked next (next a) l

namespace Linked

variable {next next' : α → Option α} {p r : Option α} {a : α} {l l₁ l₂ l₂' : List α}

theorem start_eq : ∀ {p : Option α} {l : List α}, Linked next p l → p = l.head?
  | _, [], h => h
  | _, _ :: _, h => h.1

theorem congr : ∀ {p : Option α} {l : List α}, Linked next p l → (∀ a ∈ l, next' a = next a) →
    Linked next' p l
  | _, [], h, _ => h
  | _, a :: l, ⟨hp, h⟩, hn => by
    refine ⟨hp, ?_⟩
    rw [hn a List.mem_cons_self]
    exact h.congr fun b hb => hn b (List.mem_cons_of_mem _ hb)

theorem after : ∀ {p : Option α} {l₁ : List α}, Linked next p (l₁ ++ a :: l₂) →
    Linked next (next a) l₂
  | _, [], h => h.2
  | _, _ :: _, h => after h.2

variable [DecidableEq α]

theorem update (h : Linked next p l) (ha : a ∉ l) (r : Option α) :
    Linked (Function.update next a r) p l :=
  h.congr fun b hb => Function.update_of_ne (fun he : b = a => ha (he ▸ hb)) _ _

/-- Writing a cell that is visited replaces what comes after it. -/
theorem redirect : ∀ {p : Option α} {l₁ : List α}, Linked next p (l₁ ++ a :: l₂) → a ∉ l₁ →
    a ∉ l₂' → Linked next r l₂' → Linked (Function.update next a r) p (l₁ ++ a :: l₂')
  | _, [], ⟨hp, _⟩, _, h₂, hr => ⟨hp, by simpa using hr.update h₂ r⟩
  | _, b :: l₁, ⟨hp, h⟩, h₁, h₂, hr => by
    rw [List.mem_cons, not_or] at h₁
    refine ⟨hp, ?_⟩
    rw [Function.update_of_ne (Ne.symm h₁.1)]
    exact h.redirect h₁.2 h₂ hr

end Linked
