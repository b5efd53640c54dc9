import OpenWop.Js.NumberText

/-!
# Blanking comments and literals

The scan for soft skips after an assertion reads a source text in which every comment, string, template
and regular expression is replaced by spaces. The scanner takes a comment or a literal as it stands
after the text before it, whose last significant unit tells a regular expression from a division.
-/

namespace OpenWop.SoftSkip

open OpenWop.Js

section Scanner

def newline : UInt16 := unit '\n'

def space : UInt16 := unit ' '

/-- A unit of a blanked text: newlines are kept. -/
def keep (u : UInt16) : UInt16 := if u = newline then newline else space

end Scanner

end OpenWop.SoftSkip
