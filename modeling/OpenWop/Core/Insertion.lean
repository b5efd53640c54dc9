import Mathlib.Data.List.Basic

/-!
# Insertions into a text

One word is put before every marked place of a text. The marks can be told from the texts that two
words make, where the words differ at one place only.
-/

namespace OpenWop.Insertion

variable {α : Type}

variable {x a b : List α} {c d : α}

end OpenWop.Insertion
