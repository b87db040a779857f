import Mathlib

/-!
# Bytes and machine words

A byte is a `Fin 256`, a machine word a `Fin (2 ^ 32)` or a `Fin (2 ^ 64)`.  Their literals and
comparisons are everywhere, so what they need is found by name.
-/

namespace SteleDb

instance neZero_256 : NeZero 256 := ⟨by decide⟩

instance neZero_u32 : NeZero (2 ^ 32) := ⟨by decide⟩

instance neZero_u64 : NeZero (2 ^ 64) := ⟨by decide⟩

instance lawfulBEq_256 : LawfulBEq (Fin 256) := inferInstance

end SteleDb
