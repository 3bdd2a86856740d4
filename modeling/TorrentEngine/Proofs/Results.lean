/-!
Computations that may fail, where they succeed: every part of them has succeeded.
-/

namespace TorrentEngine

variable {ε ε' α β : Type} {x : Except ε α}

theorem bind_eq_ok {f : α → Except ε β} {y : β} :
    x >>= f = .ok y ↔ ∃ a, x = .ok a ∧ f a = .ok y := by
  cases x with
  | error e => exact ⟨nofun, fun ⟨_, hNone, _⟩ => nomatch hNone⟩
  | ok a => exact ⟨fun h => ⟨a, rfl, h⟩, fun ⟨_, hSome, h⟩ => Except.ok.inj hSome ▸ h⟩

theorem mapError_eq_ok {f : ε → ε'} {a : α} : x.mapError f = .ok a ↔ x = .ok a := by
  cases x with
  | error e => exact ⟨nofun, nofun⟩
  | ok b => exact ⟨fun h => congrArg _ (Except.ok.inj h), fun h => congrArg _ (Except.ok.inj h)⟩

end TorrentEngine
