import Pathwise.Disk

/-!
# The closing part of a program

What stands behind the code of a node is the same for all nodes of one kind of hardware.  The texts
are kept in files beside the intermediate results, so that an installation can replace them.
-/

namespace Pathwise

namespace Target

/-- The closing part for software switches. -/
def softwareRest : String :=
  "\n".intercalate [
    "control LynetteEgress(",
    "    inout header_t                          hdr,",
    "    inout global_metadata_t                         gmeta,",
    "    inout standard_metadata_t standard_metadata)",
    "\x7b",
    "    apply \x7b",
    "    \x7d",
    "\x7d",
    "",
    "control LynetteComputeChecksum(inout header_t  hdr, inout global_metadata_t gmeta) \x7b",
    "        apply \x7b",
    "    \x7d",
    "\x7d",
    "",
    "V1Switch(",
    "    LynetteParser(),",
    "    LynetteVerifyChecksum(),",
    "    LynetteIngress(),",
    "    LynetteEgress(),",
    "    LynetteComputeChecksum(),",
    "    LynetteDeparser()",
    ")main;"]

/-- The closing part for hardware switches. -/
def hardwareRest : String :=
  "\n".intercalate [
    "struct my_egress_headers_t \x7b",
    "\x7d",
    "",
    "struct my_egress_metadata_t \x7b",
    "\x7d",
    "",
    "parser LynetteEgressParser(packet_in        pkt,",
    "    /* User */",
    "    out my_egress_headers_t          hdr,",
    "    out my_egress_metadata_t         meta,",
    "    /* Intrinsic */",
    "    out egress_intrinsic_metadata_t  eg_intr_md)",
    "\x7b",
    "    state start \x7b",
    "        pkt.extract(eg_intr_md);",
    "        transition accept;",
    "    \x7d",
    "\x7d",
    "",
    "control LynetteEgress(",
    "    /* User */",
    "    inout my_egress_headers_t                          hdr,",
    "    inout my_egress_metadata_t                         meta,",
    "    /* Intrinsic */    ",
    "    in    egress_intrinsic_metadata_t                  eg_intr_md,",
    "    in    egress_intrinsic_metadata_from_parser_t      eg_prsr_md,",
    "    inout egress_intrinsic_metadata_for_deparser_t     eg_dprsr_md,",
    "    inout egress_intrinsic_metadata_for_output_port_t  eg_oport_md)",
    "\x7b",
    "    apply \x7b",
    "    \x7d",
    "\x7d",
    "",
    "control LynetteEgressDeparser(packet_out pkt,",
    "    /* User */",
    "    inout my_egress_headers_t                       hdr,",
    "    in    my_egress_metadata_t                      meta,",
    "    /* Intrinsic */",
    "    in    egress_intrinsic_metadata_for_deparser_t  eg_dprsr_md)",
    "\x7b",
    "    apply \x7b",
    "        pkt.emit(hdr);",
    "    \x7d",
    "\x7d",
    "",
    "Pipeline(",
    "    LynetteIngressParser(),",
    "    LynetteIngress(),",
    "    LynetteIngressDeparser(),",
    "    LynetteEgressParser(),",
    "    LynetteEgress(),",
    "    LynetteEgressDeparser()",
    ") pipe;",
    "",
    "Switch(pipe) main;"]

/-- A component directory as it is installed: empty directories and the closing parts. -/
def install (d : Disk) (component : Place) : Disk :=
  let d := ["topo", "path", "code", "main", "rest"].foldl
    (fun d name => d.makeDirectories (component ++ [name])) d
  [("rest", softwareRest), ("rest_v1mod", softwareRest), ("rest_tna", hardwareRest)].foldl
    (fun d (name, text) => d.put (component ++ ["rest", name]) text) d

end Target

end Pathwise
