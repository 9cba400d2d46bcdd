/-!
# Numbers for things

Containers, slots and generators are referred to by number, in the order in which they came to be.
-/

namespace AtomicCss

/-- A container of a document. The root is number 1 and each later container takes the next
number, so a greater number means a younger container. -/
abbrev ContainerId := Nat

/-- A slot of a document, from 0 in the order of reservation. -/
abbrev SlotId := Nat

/-- A utility or a recipe, from 0 in the order of registration. -/
abbrev GeneratorId := Nat

end AtomicCss
