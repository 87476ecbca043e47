import Pathwise.Syntax.Parse

/-!
# The grammar of definition files

A definition file gives names to bit-string types and to constants, which hold for a whole project.
-/

namespace Pathwise.Language

open Ebnf

def definitionRules : List (String × Ebnf) := [
  ("start", many (oneOf [rule "type_define", rule "const_define", rule "null"])),
  ("type_define", all [lit "typedef", token .bitType, token .name, lit ";"]),
  ("const_define", all [lit "const", token .bitType, rule "data", lit "=", rule "data", lit ";"]),
  ("null", lit ";"),
  ("data", oneOf [rule "int", rule "name", rule "ox_num"]),
  ("int", token .int),
  ("name", token .name),
  ("ox_num", token .looseHexNumber)]

def definitions : Grammar := .ofRules definitionRules

end Pathwise.Language
