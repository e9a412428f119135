/-!
# Vulkan result codes

The result codes the modelled functions return or test, with the numeric
values of the Vulkan headers. A driver may return any other code.
-/
namespace Vulkan

inductive VkResult where
  | success
  | notReady
  | timeout
  | suboptimal
  | errorOutOfHostMemory
  | errorOutOfDeviceMemory
  | errorInitializationFailed
  | errorDeviceLost
  | errorExtensionNotPresent
  | errorFormatNotSupported
  | errorUnknown
  | errorSurfaceLost
  | errorNativeWindowInUse
  | errorOutOfDate
  | other (code : Int)
  deriving DecidableEq, Repr

/-- The numeric code; errors are the negative ones. -/
def VkResult.code : VkResult → Int
  | .success => 0
  | .notReady => 1
  | .timeout => 2
  | .suboptimal => 1000001003
  | .errorOutOfHostMemory => -1
  | .errorOutOfDeviceMemory => -2
  | .errorInitializationFailed => -3
  | .errorDeviceLost => -4
  | .errorExtensionNotPresent => -7
  | .errorFormatNotSupported => -11
  | .errorUnknown => -13
  | .errorSurfaceLost => -1000000000
  | .errorNativeWindowInUse => -1000000001
  | .errorOutOfDate => -1000001004
  | .other code => code

/-- A result behind a check is had if the check does not fail. -/
theorem ite_error_eq_ok {ε α : Type} {p : Prop} [Decidable p] {e : ε} {x : Except ε α} {a : α} :
    (if p then .error e else x) = .ok a ↔ ¬p ∧ x = .ok a := by
  split <;> simp [*]

section
variable {ε α β : Type} {x : Except ε α} {f : α → Except ε β}

/-- A computation in two parts succeeds if both do. -/
theorem bind_eq_ok {b : β} :
    (x >>= f) = .ok b ↔ ∃ a, x = .ok a ∧ f a = .ok b := by
  cases x with
  | error e => exact ⟨fun h => (nomatch h), fun ⟨_, h, _⟩ => (nomatch h)⟩
  | ok a => exact ⟨fun h => ⟨a, rfl, h⟩, fun ⟨_, h, hb⟩ => by cases h; exact hb⟩

/-- A computation in two parts fails where one of them does. -/
theorem bind_eq_error {e : ε} :
    (x >>= f) = .error e ↔ x = .error e ∨ ∃ a, x = .ok a ∧ f a = .error e := by
  cases x with
  | error e' =>
    refine ⟨fun h => .inl (by cases h; rfl), ?_⟩
    rintro (h | ⟨_, h, -⟩)
    · cases h; rfl
    · cases h
  | ok a =>
    refine ⟨fun h => .inr ⟨a, rfl, h⟩, ?_⟩
    rintro (h | ⟨_, h, hf⟩)
    · cases h
    · cases h; exact hf

end

end Vulkan
