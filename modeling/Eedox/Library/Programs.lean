import Eedox.Library.Refinement

namespace Eedox.Library.Programs

open Refinement

/-- A program makes calls and goes on with what they return. -/
inductive Program (κ ρ α : Type*)
  | done (a : α)
  | stuck
  | call (c : κ) (next : ρ → Program κ ρ α)

/-- What answers the calls. -/
structure Machine (σ κ ρ : Type*) where
  step : σ → κ → Option σ
  reply : σ → Option ρ

variable {σ τ κ ρ : Type*} {α β γ : Type*} {M : Machine σ κ ρ} {s : σ} {t : τ} {c : κ} {p : Program κ ρ α}
  {next : ρ → Program κ ρ α} {P Q : α → σ → Prop} {guard : σ → κ → Prop}

namespace Program

def bind : Program κ ρ α → (α → Program κ ρ β) → Program κ ρ β
  | done a, f => f a
  | stuck, _ => stuck
  | call c next, f => call c fun r => (next r).bind f

instance : Monad (Program κ ρ) where
  pure := done
  bind := bind

/-- The body is repeated until it has a result, and no more often than `fuel` says. -/
def loop (body : β → Program κ ρ (β ⊕ α)) : (fuel : ℕ) → β → Program κ ρ α
  | 0, _ => stuck
  | fuel + 1, b => (body b).bind fun r => Sum.elim (loop body fuel) done r

def run (M : Machine σ κ ρ) : Program κ ρ α → σ → Option (α × σ)
  | done a, s => some (a, s)
  | stuck, _ => none
  | call c next, s => (M.step s c).bind fun s => (M.reply s).bind fun r => (next r).run M s

end Program

open Program

/-- The program ends, with a result and in a state as stated. -/
def Ends (M : Machine σ κ ρ) : Program κ ρ α → (α → σ → Prop) → σ → Prop
  | done a, Q, s => Q a s
  | stuck, _, _ => False
  | call c next, Q, s => ∃ s' r, M.step s c = some s' ∧ M.reply s' = some r ∧ Ends M (next r) Q s'

theorem Ends.runs (h : Ends M p Q s) : ∃ a s', p.run M s = some (a, s') ∧ Q a s' := by
  induction p generalizing s with
  | done a => exact ⟨a, s, rfl, h⟩
  | stuck => exact h.elim
  | call c next ih =>
    obtain ⟨s', r, hstep, hreply, hnext⟩ := h
    obtain ⟨a, s'', hrun, hQ⟩ := ih r hnext
    refine ⟨a, s'', ?_, hQ⟩
    rw [run, hstep, Option.bind_some, hreply, Option.bind_some]
    exact hrun

/-- What ends in a state from which the next program ends. -/
theorem Ends.bind {f : α → Program κ ρ β} {Q : β → σ → Prop} (h : Ends M p (fun a => Ends M (f a) Q) s) :
    Ends M (p.bind f) Q s := by
  induction p generalizing s with
  | done a => exact h
  | stuck => exact h
  | call c next ih =>
    obtain ⟨s', r, hstep, hreply, hnext⟩ := h
    exact ⟨s', r, hstep, hreply, ih r hnext⟩

section refinement

variable {rel : σ → τ → Prop} {spec : τ → κ → τ} {answer : τ → Option ρ}

end refinement

end Eedox.Library.Programs
