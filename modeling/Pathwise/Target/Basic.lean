import Pathwise.Fault

/-!
# Targets

A node is a software switch or a hardware switch.  The two differ in the architecture their programs
are written for, and so in how a program refers to ports, to dropping a packet and to its
surroundings.
-/

namespace Pathwise

inductive Target where
  | software
  | hardware
deriving Repr, DecidableEq, Inhabited

namespace Target

def ofResource (resource : Json) : Report Target :=
  match resource with
  | .str "CPU" => pure software
  | .str "ASIC" => pure hardware
  | _ => Report.halt "error-lynette-output-what resource 78451"

def library : Target → String
  | software => "#include <v1model.p4>\n\n"
  | hardware => "#include <tna.p4>\n\n"

def parserHead (headerType : String) : Target → String
  | software =>
    s!"parser LynetteParser(packet_in pkt, out {headerType} hdr, " ++
      "inout global_metadata_t gmeta, inout standard_metadata_t im)\x7b\n"
  | hardware =>
    s!"parser LynetteIngressParser(packet_in pkt,out {headerType} hdr," ++
      "out global_metadata_t meta,out ingress_intrinsic_metadata_t ig_intr_md)\x7b\n"

/-- The states of the parser: a hardware switch reads its own metadata before the first header. -/
def parserStates (text : String) : Target → String
  | software => text
  | hardware =>
    Text.replace "transition parse_ethernet;"
      ("pkt.extract(ig_intr_md);\n        pkt.advance(PORT_METADATA_SIZE);\n" ++
        "        transition parse_ethernet;") text

def checksum (headerType : String) : Target → String
  | software =>
    s!"control LynetteVerifyChecksum(inout {headerType} hdr, " ++
      "inout global_metadata_t gmeta) \x7b\n    apply \x7b  \x7d\n\x7d\n\n"
  | hardware => ""

def ingressHead (headerType : String) : Target → String
  | software =>
    s!"control LynetteIngress(\n    inout {headerType} hdr,\n" ++
      "    inout global_metadata_t gmeta,\n    inout standard_metadata_t im)\n\x7b\n"
  | hardware =>
    s!"control LynetteIngress(\n    inout {headerType} hdr,\n" ++
      "    inout global_metadata_t gmeta,\n" ++
      "    in    ingress_intrinsic_metadata_t              ig_intr_md,\n" ++
      "    in    ingress_intrinsic_metadata_from_parser_t  ig_prsr_md,\n" ++
      "    inout ingress_intrinsic_metadata_for_deparser_t ig_dprsr_md,\n" ++
      "    inout ingress_intrinsic_metadata_for_tm_t       ig_tm_md)\n\x7b\n"

/-- What the neutral words of control code are on a target, in the order in which they are
replaced. -/
def vocabulary : Target → List (String × String)
  | software =>
    [("LynettePKT", "im"), ("LynetteDrop", "mark_to_drop(im)"),
      ("LynetteHeaderCompress", "header_compress"),
      ("LynetteOutPort", "egress_spec"), ("LynetteInPort", "ingress_port")]
  | hardware =>
    [("LynettePKT.LynetteOutPort", "ig_tm_md.ucast_egress_port"),
      ("LynetteDrop", "ig_dprsr_md.drop_ctl = 1"),
      ("LynettePKT.LynetteInPort", "ig_intr_md.ingress_port")]

def controlLine (t : Target) (line : String) : String :=
  t.vocabulary.foldl (fun l (word, meaning) => Text.replace word meaning l) line

def deparserHead (headerType : String) : Target → String
  | software => s!"control LynetteDeparser(packet_out pkt, in {headerType} hdr) \x7b\n"
  | hardware =>
    s!"control LynetteIngressDeparser(packet_out pkt,inout {headerType} hdr," ++
      "in global_metadata_t meta," ++
      "in ingress_intrinsic_metadata_for_deparser_t ig_dprsr_md)\x7b\n"

def restName : Target → String
  | software => "rest_v1mod"
  | hardware => "rest_tna"

/-- What is put behind the name of a node in the name of its entry file. -/
def entryEnding : Target → String
  | software => "_entry.json"
  | hardware => "_entry.py"

end Target

end Pathwise
