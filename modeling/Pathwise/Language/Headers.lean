import Pathwise.Syntax.Parse

/-!
# The grammar of header files

A header file declares packet headers and the structures that hold them, each a list of typed
fields.
-/

namespace Pathwise.Language

open Ebnf

/-- A typed field of a header or a structure. -/
def fieldDeclaration : Ebnf :=
    all [alt (token .bitType) (token .innerName), token .innerName, lit ";"]

def headerRules : List (String × Ebnf) := [
  ("start", many (alt (rule "header") (rule "struct"))),
  ("header", all [lit "header", rule "header_name", lbrace, many (rule "header_def"), rbrace]),
  ("header_def", fieldDeclaration),
  ("header_name", token .innerName),
  ("struct", all [lit "struct", rule "struct_name", lbrace, many (rule "struct_def"), rbrace]),
  ("struct_def", fieldDeclaration),
  ("struct_name", token .innerName)]

def headers : Grammar := .ofRules headerRules

end Pathwise.Language
