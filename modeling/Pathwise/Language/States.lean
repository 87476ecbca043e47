import Pathwise.Syntax.Parse

/-!
# The grammar of packet parsers

A packet parser is a list of states, each extracting headers and choosing a next state, followed by
the list of headers that are written back to the packet.
-/

namespace Pathwise.Language

open Ebnf

/-- A parameter: a direction that leaves no trace, a type and a name. -/
def parameter : Ebnf :=
  all [opt (oneOf [lit "in", lit "inout", lit "out"]), rule "name", rule "name"]

def stateRules : List (String × Ebnf) := [
  ("start", all [lit "parser", rule "name", lit "(", rule "par_pkt", lit ",",
    rule "par_hdr", lit ",",
    rule "par_gmeta", lit ")", lbrace, rule "nodes", rule "deparser", rbrace]),
  ("par_pkt", parameter),
  ("par_hdr", parameter),
  ("par_gmeta", parameter),
  ("nodes", many1 (rule "node")),
  ("node", all [lit "state", rule "name", lbrace, many (alt (rule "ins") (rule "exact")),
    rule "trans",
    rbrace]),
  ("trans", alt (rule "transition_select") (rule "transition")),
  ("transition", all [lit "transition", rule "name", lit ";"]),
  ("transition_select", all [lit "transition", lit "select", lit "(", rule "data", lit ")", lbrace,
    many1 (rule "transition_entry"), rbrace]),
  ("transition_entry", all [rule "data", lit ":", rule "name", lit ";"]),
  ("ins", oneOf [rule "tmp_def", rule "lookahead", rule "advance", rule "assign"]),
  ("tmp_def", all [rule "name", rule "name", lit ";"]),
  ("lookahead", all [rule "data", lit "=", lit "pkt.lookahead<", rule "name", lit ">();"]),
  ("exact", all [lit "pkt.extract(", rule "name_field", lit ");"]),
  ("advance", all [lit "pkt.advance(", alt (rule "data") (rule "data_plus"), lit ");"]),
  ("data_plus", all [rule "data", lit "*", rule "int"]),
  ("assign", all [rule "data", lit "=", rule "data", lit ";"]),
  ("deparser", all [lit "deparser", rule "name", lbrace, many (rule "deparser_hdr"), rbrace]),
  ("deparser_hdr", all [lit "pkt.emit(", rule "name_field", lit ");"]),
  ("data", oneOf [rule "int", rule "name", rule "name_field", rule "aheaddata"]),
  ("aheaddata", all [lit "pkt.lookahead<", token .bitType, lit ">()"]),
  ("name_field", all [token .innerName, lit ".", token .innerName,
    opt (seq (lit ".") (token .innerName))]),
  ("int", token .int),
  ("name", token .innerName)]

def states : Grammar := .ofRules stateRules

end Pathwise.Language
