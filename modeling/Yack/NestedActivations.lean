import Mathlib.Data.List.Basic

/-!
# Nested activations of reentrant code

Activations share a state and nest: only the newest one runs, a new one may enter
between any two of its steps, and when it leaves the one below goes on. Each
activation relates the state it runs in to the state it was entered from; what an
activation that leaves keeps of the state below it makes the relation of the one
below true again.
-/
namespace Yack.NestedActivations

/-- The code of an activation. `advance` is one step, after which the activation
has left or runs on; the input is what the step reads from outside. -/
structure Activations (σ φ ε ι : Type) where
  enter : σ → ε → Option (σ × φ)
  advance : σ → φ → ι → Option (σ × Option φ)

inductive Event (ε ι : Type) where
  | enter (request : ε)
  | advance (input : ι)
  deriving DecidableEq, Repr

variable {σ φ ε ι : Type}

/-- The shared state and the activations, the running one first. -/
abbrev Config (σ φ : Type) := σ × List φ

namespace Activations
variable (A : Activations σ φ ε ι)

def fire : Config σ φ → Event ε ι → Option (Config σ φ)
  | (s, frames), .enter request =>
      (A.enter s request).map fun (s', frame) => (s', frame :: frames)
  | (_, []), .advance _ => none
  | (s, frame :: frames), .advance input =>
      (A.advance s frame input).map fun (s', frame') => (s', frame'.toList ++ frames)

def run : Config σ φ → List (Event ε ι) → Option (Config σ φ)
  | c, [] => some c
  | c, event :: events => (A.fire c event).bind fun c' => run c' events

theorem run_advance {s s' : σ} {f f' : φ} {input : ι} (frames : List φ)
    (h : A.advance s f input = some (s', some f')) (events : List (Event ε ι)) :
    A.run (s, f :: frames) (.advance input :: events) = A.run (s', f' :: frames) events := by
  rw [run, fire, h]
  rfl

theorem run_leave {s s' : σ} {f : φ} {input : ι} (frames : List φ)
    (h : A.advance s f input = some (s', none)) (events : List (Event ε ι)) :
    A.run (s, f :: frames) (.advance input :: events) = A.run (s', frames) events := by
  rw [run, fire, h]
  rfl

theorem run_append (c : Config σ φ) (events more : List (Event ε ι)) :
    A.run c (events ++ more) = (A.run c events).bind fun c' => A.run c' more := by
  induction events generalizing c with
  | nil => rfl
  | cons event events ih =>
      rw [List.cons_append, run, run]
      cases A.fire c event with
      | none => rfl
      | some c' => exact ih c'

theorem run_trans {c c' c'' : Config σ φ} {events more : List (Event ε ι)}
    (h : A.run c events = some c') (h' : A.run c' more = some c'') :
    A.run c (events ++ more) = some c'' := by
  rw [run_append, h]
  exact h'

/-- Every activation of the run enters in a state that meets the condition. -/
def Meets (condition : σ → ε → Prop) : Config σ φ → List (Event ε ι) → Prop
  | _, [] => True
  | c, .enter request :: events =>
      condition c.1 request ∧ ∀ c' ∈ A.fire c (.enter request), Meets condition c' events
  | c, .advance input :: events => ∀ c' ∈ A.fire c (.advance input), Meets condition c' events

instance decidableMeets (condition : σ → ε → Prop) [∀ s request, Decidable (condition s request)] :
    ∀ c events, Decidable (Meets A condition c events)
  | _, [] => .isTrue trivial
  | c, .enter request :: events =>
      have := fun c' => decidableMeets condition c' events
      inferInstanceAs (Decidable (condition c.1 request ∧
        ∀ c' ∈ A.fire c (.enter request), Meets A condition c' events))
  | c, .advance input :: events =>
      have := fun c' => decidableMeets condition c' events
      inferInstanceAs (Decidable (∀ c' ∈ A.fire c (.advance input), Meets A condition c' events))

/-- Every activation relates the state the one above it entered from to its own;
the lowest one entered from a state the runs so far made of `base`. -/
inductive Stacked (Good : σ → σ → φ → Prop) (Restores : σ → σ → Prop) (base : σ) :
    σ → List φ → Prop where
  | idle {s : σ} (h : Restores base s) : Stacked Good Restores base s []
  | frame {s₀ s : σ} {f : φ} {frames : List φ} (hgood : Good s₀ s f)
      (hbelow : Stacked Good Restores base s₀ frames) :
      Stacked Good Restores base s (f :: frames)

/-- `Good s₀ s f`: the activation `f`, entered from `s₀`, may run in `s`. -/
structure Invariant (condition : σ → ε → Prop) (Good : σ → σ → φ → Prop)
    (Restores : σ → σ → Prop) : Prop where
  enter : ∀ s₀ request s f, condition s₀ request → A.enter s₀ request = some (s, f) → Good s₀ s f
  advance : ∀ s₀ s f input s' f', Good s₀ s f → A.advance s f input = some (s', some f') →
    Good s₀ s' f'
  leave : ∀ s₀ s f input s', Good s₀ s f → A.advance s f input = some (s', none) → Restores s₀ s'
  resume : ∀ s₁ s₀ s f, Good s₁ s₀ f → Restores s₀ s → Good s₁ s f
  trans : ∀ s₀ s₁ s₂, Restores s₀ s₁ → Restores s₁ s₂ → Restores s₀ s₂

variable {A} {condition : σ → ε → Prop} {Good : σ → σ → φ → Prop} {Restores : σ → σ → Prop}

theorem meets_true (c : Config σ φ) (events : List (Event ε ι)) :
    A.Meets (fun _ _ => True) c events := by
  induction events generalizing c with
  | nil => trivial
  | cons event events ih =>
      cases event with
      | enter request => exact ⟨trivial, fun c' _ => ih c'⟩
      | advance input => exact fun c' _ => ih c'

/-- What an activation leaves behind is a state the one below may run in. -/
theorem Invariant.restored (h : A.Invariant condition Good Restores) {base s₀ s : σ}
    {frames : List φ} (hs : Stacked Good Restores base s₀ frames) (hr : Restores s₀ s) :
    Stacked Good Restores base s frames := by
  cases hs with
  | idle hbase => exact .idle (h.trans _ _ _ hbase hr)
  | frame hgood hbelow => exact .frame (h.resume _ _ _ _ hgood hr) hbelow

theorem Invariant.fire (h : A.Invariant condition Good Restores) {base : σ} {c c' : Config σ φ}
    {event : Event ε ι} {events : List (Event ε ι)}
    (hmeets : A.Meets condition c (event :: events))
    (hs : Stacked Good Restores base c.1 c.2) (hfire : A.fire c event = some c') :
    Stacked Good Restores base c'.1 c'.2 ∧ A.Meets condition c' events := by
  obtain ⟨s, frames⟩ := c
  cases event with
  | enter request =>
      obtain ⟨⟨s', f⟩, henter, rfl⟩ := Option.map_eq_some_iff.mp hfire
      exact ⟨.frame (h.enter _ _ _ _ hmeets.1 henter) hs, hmeets.2 _ hfire⟩
  | advance input =>
      refine ⟨?_, hmeets _ hfire⟩
      cases hs with
      | idle => cases hfire
      | frame hgood hbelow =>
          obtain ⟨⟨s', next⟩, hadvance, rfl⟩ := Option.map_eq_some_iff.mp hfire
          cases next with
          | none => exact h.restored hbelow (h.leave _ _ _ _ _ hgood hadvance)
          | some f' => exact .frame (h.advance _ _ _ _ _ _ hgood hadvance) hbelow

theorem Invariant.run (h : A.Invariant condition Good Restores) {base : σ}
    {events : List (Event ε ι)} {c c' : Config σ φ}
    (hmeets : A.Meets condition c events) (hs : Stacked Good Restores base c.1 c.2)
    (hrun : A.run c events = some c') : Stacked Good Restores base c'.1 c'.2 := by
  induction events generalizing c with
  | nil =>
      cases hrun
      exact hs
  | cons event events ih =>
      obtain ⟨c₁, hfire, hrest⟩ := Option.bind_eq_some_iff.mp hrun
      obtain ⟨hs₁, hmeets₁⟩ := h.fire hmeets hs hfire
      exact ih hmeets₁ hs₁ hrest

/-- A relation to the state entered from that grows up the stack holds between
the running activation and every one below it. -/
theorem Stacked.forall_frames {base s : σ} {frames : List φ}
    (hs : Stacked Good Restores base s frames) (Below : σ → σ → Prop) (P : σ → φ → Prop)
    (hbelow : ∀ s₀ s f, Good s₀ s f → Below s₀ s) (hhere : ∀ s₀ s f, Good s₀ s f → P s f)
    (hup : ∀ s₀ s f, P s₀ f → Below s₀ s → P s f) : ∀ f ∈ frames, P s f := by
  induction hs with
  | idle => exact fun f hf => absurd hf List.not_mem_nil
  | frame hgood _ ih =>
      intro f hf
      cases List.mem_cons.mp hf with
      | inl h =>
          subst h
          exact hhere _ _ _ hgood
      | inr h => exact hup _ _ _ (ih f h) (hbelow _ _ _ hgood)

end Activations
end Yack.NestedActivations
