import Pathwise.Proofs.Compile.Outcome

/-!
# Deployment after a compilation

The entries of nodes are sent to the nodes one after another, from the files that a compilation has
written.

* `Deploy.flatten_blocks`: the blocks in which a content is sent are the content.
* `Deploy.Sent`: what is exchanged to send the entries of nodes, and the fault that ends it.
* `Deploy.entries_sent`: **nodes get the bytes of their files, up to the first one that has no such
  file or no address.**

A compilation writes such files for software switches only.  So the deployment comes to its end if
all nodes are software switches with an address, and otherwise stops at the first one that is not.
-/

namespace Pathwise

open Steps List

/-! ### Two slashes -/

namespace Disk

variable {d : Disk} {home q : Place}

theorem follow_empty (d : Disk) (p : Place) (first second : String) :
    d.follow p [first, "", second] = d.follow p [first, second] := by
  have hstep : step (step p first) "" = step p first := rfl
  rw [follow_cons_cons, follow_cons_cons, follow_cons_cons, hstep]
  by_cases hdir : d.isDirectory (step p first) = true
  · rw [if_pos hdir, if_pos hdir, if_neg (show ¬ maxName < ("" : String).utf8ByteSize by decide)]
  · rw [if_neg hdir, if_neg hdir]

theorem follow_short {p : Place} {first second : String} (h : d.follow p [first, second] = .ok q) :
    second.utf8ByteSize ≤ maxName := by
  rw [follow_cons_cons] at h
  split at h
  · cases h
  split at h
  · rw [follow] at h
    split at h
    · cases h
    next hshort => exact Nat.le_of_not_lt hshort
  · split at h <;> cases h

theorem locate_two_slashes {name : String} (hname : '/' ∉ name.toList) :
    d.locate home ("pne_out//" ++ name) = .ok q ↔ d.locate home ("pne_out/" ++ name) = .ok q := by
  have htwo : names ("pne_out//" ++ name) = ["pne_out", "", name] := names_slash "pne_out/" hname
  have hone : names ("pne_out/" ++ name) = ["pne_out", name] := names_slash "pne_out" hname
  have hstart : "pne_out//".startsWith "/" = "pne_out/".startsWith "/" :=
    startsWith_append (a := "pne_out/") (by decide) "/"
  have hnull : ∀ {dir : String}, '\x00' ∉ dir.toList →
      ('\x00' ∉ (dir ++ name).toList ↔ '\x00' ∉ name.toList) := by
    intro dir hdir
    rw [String.toList_append, mem_append, or_iff_right hdir]
  have hne : ∀ {dir : String}, dir ≠ "" → dir ++ name ≠ "" := by
    intro dir hdir h
    rw [String.append_eq_empty_iff] at h
    exact hdir h.1
  rw [locate_eq_ok_iff, locate_eq_ok_iff, htwo, hone, follow_empty, startsWith_append (by decide),
    startsWith_append (by decide), hstart, hnull (by decide), hnull (by decide),
      String.utf8ByteSize_append, String.utf8ByteSize_append,
    show "pne_out//".utf8ByteSize = 9 from rfl, show "pne_out/".utf8ByteSize = 8 from rfl]
  constructor
  · rintro ⟨-, hname, hshort, h⟩
    exact ⟨hne (by decide), hname, by omega, h⟩
  · rintro ⟨-, hname, -, h⟩
    have hlast := follow_short h
    rw [maxName] at hlast
    exact ⟨hne (by decide), hname, by rw [maxPath]; omega, h⟩

end Disk

theorem Runner.lift_eq {α : Type} (x : Run α) (r : Runner) :
    (liftM x : Compiling α) r = match x r.session with
    | .ok a s => .ok a { r with session := s }
    | .error e s => .error e { r with session := s } :=
  rfl

namespace Deploy

/-! ### Exchanges -/

theorem flatten_blocksFrom (n : Nat) (bytes : List UInt8) :
    (blocksFrom n bytes).flatten = bytes := by
  fun_induction blocksFrom n bytes with
  | case1 => rfl
  | case2 b bs ih => rw [flatten_cons, ih, cons_append, take_append_drop]

theorem blocksFrom_length (n : Nat) (bytes : List UInt8) :
    ∀ block ∈ blocksFrom n bytes, block ≠ [] ∧ block.length ≤ n + 1 := by
  fun_induction blocksFrom n bytes with
  | case1 => exact forall_mem_nil _
  | case2 b bs ih =>
    refine forall_mem_cons.mpr ⟨⟨cons_ne_nil _ _, ?_⟩, ih⟩
    rw [length_cons]
    exact Nat.succ_le_succ (length_take_le n bs)

def delivery (host : String) (name : String) (blocks : List (List UInt8)) : List Exchange :=
  [.connect host devicePort, .send (Text.bytes name), .receive blockSize] ++
    (blocks.map .send ++ [.sleep 2, .close])

/-- There were these exchanges, and neither files nor devices changed. -/
structure Exchanged (xs : List Exchange) (s s' : Session) : Prop where
  disk : s'.disk = s.disk
  home : s'.home = s.home
  peer : s'.peer = s.peer
  exchanges : s'.exchanges.toList = s.exchanges.toList ++ xs

namespace Exchanged

variable {xs ys : List Exchange} {s s' s'' : Session}

theorem refl (s : Session) : Exchanged [] s s :=
  ⟨rfl, rfl, rfl, (append_nil _).symm⟩

theorem trans (h : Exchanged xs s s') (h' : Exchanged ys s' s'') : Exchanged (xs ++ ys) s s'' :=
  ⟨h'.disk.trans h.disk, h'.home.trans h.home,
    h'.peer.trans h.peer, by rw [h'.exchanges, h.exchanges, append_assoc]⟩

theorem exchange (x : Exchange) (s : Session) : ∃ s', Run.exchange x s = .ok () s' ∧
    Exchanged [x] s s' :=
  ⟨_, rfl, rfl, rfl, rfl, Array.toList_push⟩

theorem say (line : String) (s : Session) :
    ∃ s', (liftM (Report.say line) : Run Unit) s = .ok () s' ∧ Exchanged [] s s' :=
  ⟨_, rfl, rfl, rfl, rfl, (append_nil _).symm⟩

theorem sends (blocks : List (List UInt8)) (s : Session) :
    ∃ s', blocks.forM (fun b => Run.exchange (.send b)) s = .ok () s' ∧
      Exchanged (blocks.map .send) s s' := by
  induction blocks generalizing s with
  | nil => exact ⟨s, rfl, refl s⟩
  | cons b blocks ih =>
    obtain ⟨s1, hfirst, hexchanged⟩ := exchange (.send b) s
    obtain ⟨s', hrest, hexchanged'⟩ := ih s1
    exact ⟨s', forM_cons_eq_ok.mpr ⟨s1, hfirst, hrest⟩, hexchanged.trans hexchanged'⟩

end Exchanged

/-! ### One node -/

variable {s s' : Session} {dir name text : String} {q : Place}

theorem readRaw_of_file {path : String} (hq : s.disk.locate s.home path = .ok q)
    (hfile : s.disk.file? q = some text) :
    Run.readRaw path s = .ok text s := by
  rw [Run.readRaw, bind_of_ok (Run.locate_eq_ok.mpr ⟨hq, rfl⟩),
    bind_of_ok (get_eq_ok.mpr ⟨rfl, rfl⟩), hfile]
  rfl

theorem readRaw_of_no_file {path : String}
    (h : ∀ q, s.disk.locate s.home path = .ok q → s.disk.file? q = none) :
    ∃ e, Run.readRaw path s = .error (.disk e path) s := by
  cases hq : s.disk.locate s.home path with
  | error e =>
    have hlocate : Run.locate path s = .error (.disk e path) s := by
      rw [Run.locate, bind_of_ok (get_eq_ok.mpr ⟨rfl, rfl⟩), hq]
      rfl
    exact ⟨e, bind_of_error hlocate⟩
  | ok q =>
    rw [Run.readRaw, bind_of_ok (Run.locate_eq_ok.mpr ⟨hq, rfl⟩),
      bind_of_ok (get_eq_ok.mpr ⟨rfl, rfl⟩), h q hq]
    exact ⟨_, rfl⟩

theorem connect_eq (hpeer : s.peer.refusing = []) (host : String) :
    ∃ s', connect (.str host) devicePort s = .ok () s' ∧
      Exchanged [.connect host devicePort] s s' := by
  obtain ⟨s', hfirst, hexchanged⟩ := Exchanged.exchange (.connect host devicePort) s
  refine ⟨s', ?_, hexchanged⟩
  unfold connect
  dsimp only
  rw [bind_of_ok hfirst, bind_of_ok (get_eq_ok.mpr ⟨rfl, rfl⟩), hexchanged.peer, hpeer]
  rfl

theorem toNode_of_no_text {host : Json} (hhost : host.str? = none) (s : Session) :
    toNode host dir name s = .error (.mismatch (.notHost host.kind)) s := by
  refine bind_of_error ?_
  cases host with
  | str h => cases hhost
  | _ => rfl

theorem toNode_of_file (host : String) (hpeer : s.peer.refusing = [])
    (hq : s.disk.locate s.home (dir ++ name) = .ok q) (hfile : s.disk.file? q = some text) :
    ∃ s', toNode (.str host) dir name s = .ok () s' ∧
      Exchanged (delivery host name (blocks (Text.bytes text))) s s' := by
  obtain ⟨s1, h1, hx1⟩ := connect_eq hpeer host
  obtain ⟨s2, h2, hx2⟩ := Exchanged.exchange (.send (Text.bytes name)) s1
  obtain ⟨s3, h3, hx3⟩ := Exchanged.exchange (.receive blockSize) s2
  obtain ⟨s4, h4, hx4⟩ := Exchanged.say s!"file recive: {s3.peer.reply}" s3
  obtain ⟨s5, h5, hx5⟩ := Exchanged.sends (blocks (Text.bytes text)) s4
  obtain ⟨s6, h6, hx6⟩ := Exchanged.exchange (.sleep 2) s5
  obtain ⟨s7, h7, hx7⟩ := Exchanged.exchange .close s6
  have hread : Run.readRaw (dir ++ name) s1 = .ok text s1 :=
    readRaw_of_file (by rw [hx1.disk, hx1.home]; exact hq) (by rw [hx1.disk]; exact hfile)
  have hsend : sendFile (dir ++ name) name s1 = .ok () s5 := by
    rw [sendFile, bind_of_ok hread, bind_of_ok h2, bind_of_ok h3,
      bind_of_ok (get_eq_ok.mpr ⟨rfl, rfl⟩), bind_of_ok h4]
    exact h5
  refine ⟨s7, ?_, ?_⟩
  · rw [toNode, bind_of_ok h1, bind_of_ok hsend, bind_of_ok h6]
    exact h7
  · exact hx1.trans (hx2.trans (hx3.trans (hx4.trans (hx5.trans (hx6.trans hx7)))))

theorem toNode_of_no_file (host : String) (hpeer : s.peer.refusing = [])
    (h : ∀ q, s.disk.locate s.home (dir ++ name) = .ok q → s.disk.file? q = none) :
    ∃ e s', toNode (.str host) dir name s = .error (.disk e (dir ++ name)) s' ∧
      Exchanged [.connect host devicePort] s s' := by
  obtain ⟨s1, h1, hx1⟩ := connect_eq hpeer host
  obtain ⟨e, hread⟩ : ∃ e, Run.readRaw (dir ++ name) s1 = .error (.disk e (dir ++ name)) s1 :=
    readRaw_of_no_file fun q hq => by
      rw [hx1.disk, hx1.home] at hq
      rw [hx1.disk]
      exact h q hq
  have hsend : sendFile (dir ++ name) name s1 = .error (.disk e (dir ++ name)) s1 :=
    bind_of_error hread
  refine ⟨e, s1, ?_, hx1⟩
  rw [toNode, bind_of_ok h1]
  exact bind_of_error hsend

/-! ### All nodes -/

/-- The address of a node, which is a text. -/
def Address (topology : Json) (n host : String) : Prop :=
  ∃ info, topology.part (.str n) = .ok info ∧ info.get "ip" = .ok (.str host)

/-- The node is known and has no address, or something else stands where its address should be. -/
def NoAddress (topology : Json) (n : String) (m : Mismatch) : Prop :=
  ∃ info, topology.part (.str n) = .ok info ∧
    (info.get "ip" = .error m ∨ ∃ j, info.get "ip" = .ok j ∧ j.str? = none ∧ m = .notHost j.kind)

theorem Address.not_noAddress {topology : Json} {n host : String} {m : Mismatch}
    (h : Address topology n host) : ¬ NoAddress topology n m := by
  obtain ⟨info, hinfo, hip⟩ := h
  rintro ⟨info', hinfo', hnone⟩
  cases hinfo.symm.trans hinfo'
  rw [hip] at hnone
  rcases hnone with herror | ⟨j, hj, hstr, -⟩
  · cases herror
  · cases hj
    cases hstr

/--
What is exchanged to send the entries of nodes, and the fault that ends it.  `entries` gives the
text of the file for a node.  The first node that has no address or no file is the last one.
-/
inductive Sent (topology : Json) (entries : String → Option String) : List Json → List Exchange →
    Option Fault → Prop
  | done : Sent topology entries [] [] none
  | sent {n text host : String} {blocks : List (List UInt8)} {names : List Json}
      {xs : List Exchange} {fault : Option Fault} (address : Address topology n host)
      (file : entries n = some text) (content : blocks.flatten = Text.bytes text)
      (size : ∀ b ∈ blocks, b ≠ [] ∧ b.length ≤ blockSize)
      (rest : Sent topology entries names xs fault) :
      Sent topology entries (.str n :: names)
      (delivery host (n ++ "_entry.json") blocks ++ xs) fault
  | missing {n host : String} {names : List Json} {e : DiskError}
      (address : Address topology n host) (file : entries n = none) :
      Sent topology entries (.str n :: names) [.connect host devicePort]
      (some (.disk e ("pne_out//" ++ (n ++ "_entry.json"))))
  | nowhere {n : String} {names : List Json} {m : Mismatch} (address : NoAddress topology n m) :
      Sent topology entries (.str n :: names) [] (some (.mismatch m))

theorem Sent.fault_eq_none_iff {topology : Json} {entries : String → Option String}
    {names : List Json} {xs : List Exchange} {fault : Option Fault}
    (h : Sent topology entries names xs fault) :
    fault = none ↔ ∀ n, .str n ∈ names → (∃ host, Address topology n host) ∧
      (entries n).isSome = true := by
  induction h with
  | done => exact iff_of_true rfl fun _ hn => nomatch hn
  | @sent n text host blocks names xs fault address file content size rest ih =>
    rw [ih]
    constructor
    · intro hall n' hn'
      rcases mem_cons.mp hn' with heq | hn'
      · cases heq
        exact ⟨⟨host, address⟩, by rw [file, Option.isSome_some]⟩
      · exact hall n' hn'
    · exact fun hall n' hn' => hall n' (mem_cons_of_mem _ hn')
  | @missing n host names e address file =>
    refine iff_of_false nofun fun hall => ?_
    have hfile := (hall n mem_cons_self).2
    rw [file] at hfile
    cases hfile
  | @nowhere n names m address =>
    refine iff_of_false nofun fun hall => ?_
    obtain ⟨⟨host, haddress⟩, -⟩ := hall n mem_cons_self
    exact haddress.not_noAddress address

/-- The entries of a node are in the file that they are sent from, or that file is not there. -/
def Holds (s : Session) (entries : String → Option String) (n : String) : Prop :=
  match entries n with
  | some text =>
    ∃ q, s.disk.locate s.home ("pne_out//" ++ (n ++ "_entry.json")) = .ok q ∧
      s.disk.file? q = some text
  | none =>
    ∀ q, s.disk.locate s.home ("pne_out//" ++ (n ++ "_entry.json")) = .ok q → s.disk.file? q = none

theorem Holds.of_exchanged {entries : String → Option String} {n : String} {xs : List Exchange}
    (h : Holds s entries n) (hx : Exchanged xs s s') : Holds s' entries n := by
  rw [Holds, hx.disk, hx.home]
  exact h

theorem isDirectory_eq (path : String) (s : Session) :
    Run.isDirectory path s = .ok (match s.disk.locate s.home path with
    | .ok p => s.disk.isDirectory p
    | .error _ => false) s := by
  rw [Run.isDirectory, bind_of_ok (get_eq_ok.mpr ⟨rfl, rfl⟩)]
  cases s.disk.locate s.home path <;> rfl

/-- What is done for one of the nodes. -/
def forNode (t : Json) (f : Json → String → Run Unit) (node : Json) : Compiling Unit := do
  let ip ← (← t.part node).get "ip"
  match node with
  | .str name => f ip name
  | j => throw (.mismatch (.operands "+" j.kind "str"))

/-- What is done with the entries of one of the nodes. -/
def sendEntries (ip : Json) (node : String) : Run Unit := do
  let dir := if ← Run.isDirectory "flows//" then "flows//" else "pne_out//"
  toNode ip dir (node ++ "_entry.json")

theorem entries_eq {r : Runner} {t : Json} {names : List Json} (ht : r.topology = some t)
    (hnames : t.items = .ok names) :
    entries r = names.forM (forNode t sendEntries) r := by
  have htopology : topology r = .ok t r := by
    rw [topology, bind_of_ok (get_eq_ok.mpr ⟨rfl, rfl⟩), ht]
    rfl
  show forNodes sendEntries r = _
  rw [forNodes, bind_of_ok htopology, bind_of_ok (lift_mismatch_eq_ok.mpr ⟨hnames, rfl⟩)]
  rfl

/-- How a deployment ends. -/
def ending : Option Fault → Runner → EStateM.Result Fault Runner Unit
  | none, r => .ok () r
  | some fault, r => .error fault r

/-- How the entries of one node are sent, or not. -/
inductive NodeSent (t : Json) (entries : String → Option String) (n : String) (r : Runner) :
    EStateM.Result Fault Runner Unit → Prop
  | sent {host text : String} {s' : Session} : Address t n host → entries n = some text →
    Exchanged (delivery host (n ++ "_entry.json") (blocks (Text.bytes text))) r.session s' →
    NodeSent t entries n r (.ok () { r with session := s' })
  | missing {host : String} {e : DiskError} {s' : Session} : Address t n host → entries n = none →
    Exchanged [.connect host devicePort] r.session s' →
    NodeSent t entries n r (.error (.disk e ("pne_out//" ++ (n ++ "_entry.json")))
      { r with session := s' })
  | nowhere {m : Mismatch} : NoAddress t n m → NodeSent t entries n r (.error (.mismatch m) r)

theorem forNode_ends {t info : Json} {entries : String → Option String} {n : String} {r : Runner}
    (hpeer : r.session.peer.refusing = [])
    (hflows : Run.isDirectory "flows//" r.session = .ok false r.session)
    (hinfo : t.part (.str n) = .ok info) (hholds : Holds r.session entries n) :
    NodeSent t entries n r (forNode t sendEntries (.str n) r) := by
  rw [forNode, bind_of_ok (lift_mismatch_eq_ok.mpr ⟨hinfo, rfl⟩)]
  cases hip : info.get "ip" with
  | error m =>
    rw [bind_of_error (show (liftM (Except.error m : Except Mismatch Json) : Compiling Json) r =
      .error (.mismatch m) r from rfl)]
    exact .nowhere ⟨info, hinfo, .inl hip⟩
  | ok ip =>
    rw [bind_of_ok (lift_mismatch_eq_ok.mpr ⟨rfl, rfl⟩)]
    have hsend : sendEntries ip n r.session = toNode ip "pne_out//"
        (n ++ "_entry.json") r.session := by
      rw [sendEntries, bind_of_ok hflows]
      rfl
    show NodeSent t entries n r ((liftM (sendEntries ip n) : Compiling Unit) r)
    rw [Runner.lift_eq, hsend]
    cases ip with
    | str host =>
      have haddress : Address t n host := ⟨info, hinfo, hip⟩
      rw [Holds] at hholds
      cases hentries : entries n with
      | some text =>
        rw [hentries] at hholds
        obtain ⟨q, hq, hfile⟩ := hholds
        obtain ⟨s', hsend, hx⟩ := toNode_of_file host hpeer hq hfile
        rw [hsend]
        exact .sent haddress hentries hx
      | none =>
        rw [hentries] at hholds
        obtain ⟨e, s', hsend, hx⟩ := toNode_of_no_file host hpeer hholds
        rw [hsend]
        exact .missing haddress hentries hx
    | _ =>
      rw [toNode_of_no_text rfl]
      exact .nowhere ⟨info, hinfo, .inr ⟨_, hip, rfl, rfl⟩⟩

/-- **Nodes get the bytes of their files**, up to the first one that has no address or no file. -/
theorem entries_sent {t : Json} (entries : String → Option String) {names : List Json} {r : Runner}
    (hpeer : r.session.peer.refusing = [])
    (hflows : Run.isDirectory "flows//" r.session = .ok false r.session)
    (hnames : ∀ name ∈ names, ∃ n info, name = .str n ∧ t.part name = .ok info ∧
      Holds r.session entries n) :
    ∃ xs fault s', Sent t entries names xs fault ∧ Exchanged xs r.session s' ∧
      names.forM (forNode t sendEntries) r = ending fault { r with session := s' } := by
  induction names generalizing r with
  | nil => exact ⟨[], none, r.session, .done, .refl _, rfl⟩
  | cons name names ih =>
    obtain ⟨⟨n, info, rfl, hinfo, hholds⟩, hothers⟩ := forall_mem_cons.mp hnames
    have hfirst := forNode_ends hpeer hflows hinfo hholds
    have hcons : (Json.str n :: names).forM (forNode t sendEntries) r =
        (forNode t sendEntries (.str n) >>= fun _ => names.forM (forNode t sendEntries)) r := rfl
    rw [hcons]
    cases hend : forNode t sendEntries (.str n) r with
    | ok u r1 =>
      rw [hend] at hfirst
      rw [bind_of_ok hend]
      cases hfirst with
      | @sent host text s1 haddress hentries hx =>
        have hflows1 : Run.isDirectory "flows//" s1 = .ok false s1 := by
          rw [isDirectory_eq] at hflows ⊢
          rw [hx.disk, hx.home]
          injection hflows with hflows
          rw [hflows]
        obtain ⟨xs, fault, s', hsent, hx', hrest⟩ :=
          ih (r := { r with session := s1 }) (by rw [hx.peer]; exact hpeer) hflows1
          fun name hname => by
            obtain ⟨n', info', hn', hinfo', hholds'⟩ := hothers name hname
            exact ⟨n', info', hn', hinfo', hholds'.of_exchanged hx⟩
        exact ⟨_, fault, s', .sent haddress hentries (flatten_blocksFrom _ _)
          (blocksFrom_length _ _) hsent, hx.trans hx', hrest⟩
    | error e r1 =>
      rw [hend] at hfirst
      rw [bind_of_error hend]
      cases hfirst with
      | missing haddress hentries hx => exact ⟨_, _, _, .missing haddress hentries, hx, rfl⟩
      | nowhere haddress => exact ⟨_, _, _, .nowhere haddress, .refl _, rfl⟩

/-! ### After a compilation -/

variable {w : Workspace} {headerType : String} {t : Json}

/-- The file with the entries of a node in the output directory. -/
def entriesIn (s : Session) (p : Place) (n : String) : Option String :=
  s.disk.file? (p ++ [n ++ "_entry.json"])

theorem isPlaceOf_entries_iff {names : List Json} {place : Place} {n : String} {target : Target}
    (hn : .str n ∈ names) (hon : Target.IsOn t n target) :
    Target.IsPlaceOf t names place "" (place ++ [n ++ "_entry.json"]) ↔ target = .software := by
  constructor
  · rintro ⟨n', target', hn', hon', b, hb, heq⟩
    have hname : n ++ "_entry.json" = n' ++ b := by
      rw [String.empty_append] at heq
      exact (List.cons.inj (append_inj' heq rfl).2).1
    have hlist := congrArg String.toList hname
    rw [String.toList_append, String.toList_append] at hlist
    have hendings : ∀ target : Target, ∀ b ∈ target.fileEndings, Differ "_entry.json" b ∨
        b = "_entry.json" ∧ target = .software := by
      intro target
      cases target <;> decide
    rcases hendings target' b hb with hdiffer | ⟨rfl, rfl⟩
    · have hsuffix : "_entry.json".toList <:+ n'.toList ++ b.toList := hlist ▸ suffix_append _ _
      exact ((suffix_or_suffix_of_suffix hsuffix (suffix_append _ _)).elim hdiffer.1 hdiffer.2).elim
    · obtain rfl : n = n' := String.toList_injective (append_cancel_right hlist)
      exact hon.unique hon'
  · rintro rfl
    exact ⟨n, .software, hn, hon, "_entry.json", by decide, by rw [String.empty_append]⟩

/-- **Entries are written where they are sent from**, for software switches. -/
theorem write_holds {s'' : Session} (h : Target.write w headerType "pne_out/" t s = .ok () s')
    (hlog : KeepsFiles (fun q => ¬ EndsWith q "log.txt") s' s'') :
    ∃ p names, t.items = .ok names ∧ s.disk.locate s.home "pne_out/" = .ok p ∧
      (∀ name ∈ names, ∃ n target, name = .str n ∧ Target.IsOn t n target) ∧
      ((∀ n, .str n ∈ names → '/' ∉ n.toList) → ∀ n target, .str n ∈ names →
        Target.IsOn t n target →
        ((entriesIn s' p n).isSome = true ↔ target = .software) ∧
          Holds s'' (entriesIn s' p) n) := by
  have hfront : "pne_out/" = "" ∨ ∃ dir, "pne_out/" = dir ++ "/" := .inr ⟨"pne_out", rfl⟩
  have hlast : '/' ∉ "".toList := by decide
  obtain ⟨place, _, names, hnames, hp, -, rfl, hall, hkeeps, hplaced⟩ :=
    Target.write_placed hfront hlast h
  obtain ⟨place', hplace', hinside⟩ := Disk.locate_beside hfront hlast hp
  obtain rfl : place = place' := hplace'
  refine ⟨place, names, hnames, hp, hall, fun hslash n target hn hon => ?_⟩
  obtain ⟨hlocate, hthere, hothers⟩ := hplaced hslash
  have hsome : (entriesIn s' place n).isSome = true ↔ target = .software := by
    rw [← isPlaceOf_entries_iff hn hon]
    refine ⟨fun hsome => ?_, hthere _⟩
    by_contra hnot
    rw [entriesIn, hothers _ hnot, if_pos ⟨dropLast_concat, by simp⟩] at hsome
    cases hsome
  refine ⟨hsome, ?_⟩
  have hsame : s''.disk.file? (place ++ [n ++ "_entry.json"]) = entriesIn s' place n :=
    hlog.files _ (EndsWith.not_of_differ (b := "_entry.json") ⟨place,
      n.toList, by simp⟩ (by decide))
  have hplaces : ∀ q, s''.disk.locate s''.home ("pne_out//" ++ (n ++ "_entry.json")) = .ok q ↔
      s.disk.locate s.home ("pne_out/" ++ (n ++ "_entry.json")) = .ok q := by
    intro q
    rw [Disk.locate_two_slashes (IsEnding.append (hslash n hn) (by decide)).1]
    exact (hkeeps.trans (hlog.mono fun _ h => h.elim)).locate _ q
  rw [Holds]
  cases hentries : entriesIn s' place n with
  | some text =>
    rw [hentries] at hsome hsame
    obtain rfl := hsome.mp rfl
    refine ⟨place ++ [n ++ "_entry.json"], (hplaces _).mpr ?_, hsame⟩
    simpa [String.append_assoc] using hlocate n .software "_entry.json" hn hon (by decide)
  | none =>
    intro q hq
    have hq := hinside _ _ (.append (hslash n hn) (by decide)) ((hplaces q).mp hq)
    rw [hq, String.empty_append, hsame, hentries]

/--
**Compiled entries are deployed up to the first node that is no software switch.**  A compilation
into `pne_out/` succeeded, nodes have names without slashes, no entries were prepared by hand, and
devices refuse nobody.  Then nodes get, one after another, the name of their file and exactly the
bytes that the compilation wrote to it; this ends at the first node that has no text for an address,
or that is a hardware switch, whose entries have another name: it is connected to, and nothing is
sent.  So the deployment comes to its end exactly if all nodes are software switches with an
address.
-/
theorem deployed_until_hardware {onlyProgram : Bool} {r r' : Runner}
    (hrun : Runner.run onlyProgram false false r = .ok () r') (houtput : r.output = .str "pne_out/")
    (hflows : Run.isDirectory "flows//" r'.session = .ok false r'.session)
    (hpeer : r'.session.peer.refusing = []) :
    ∃ headerType t names p s s', r'.topology = some t ∧ t.items = .ok names ∧
      (∀ name ∈ names, ∃ n target, name = .str n ∧ Target.IsOn t n target) ∧
      Target.write r.workspace headerType "pne_out/" t s = .ok () s' ∧
        s.disk.locate s.home "pne_out/" = .ok p ∧
      ((∀ n, .str n ∈ names → '/' ∉ n.toList) →
        (∀ n target, .str n ∈ names → Target.IsOn t n target →
          ((entriesIn s' p n).isSome = true ↔ target = .software)) ∧
        (∃ xs fault s'', Sent t (entriesIn s' p) names xs fault ∧ Exchanged xs r'.session s'' ∧
          entries r' = ending fault { r' with session := s'' }) ∧
        ((∃ r'', entries r' = .ok () r'') ↔
          ∀ n, .str n ∈ names → Target.IsOn t n .software ∧ ∃ host, Address t n host)) := by
  obtain ⟨headerType, directory, t, s₀, s, s', hdirectory, htopology, -, hwrite, hlog⟩ :=
    Runner.run_writes hrun
  obtain rfl : "pne_out/" = directory := Json.str.inj (houtput.symm.trans hdirectory)
  obtain ⟨p, names, hnames, hp, hall, hholds⟩ := write_holds hwrite hlog
  refine ⟨headerType, t, names, p, s, s', htopology, hnames, hall, hwrite, hp, fun hslash => ?_⟩
  have hsoftware := fun n target hn hon => (hholds hslash n target hn hon).1
  obtain ⟨xs, fault, s'', hsent, hx, hend⟩ :=
    entries_sent (entriesIn s' p) hpeer hflows fun name hname => by
    obtain ⟨n, target, rfl, hon⟩ := hall name hname
    obtain ⟨info, hinfo, hresource⟩ := hon
    exact ⟨n, info, rfl, hinfo, (hholds hslash n target hname ⟨info, hinfo, hresource⟩).2⟩
  rw [← entries_eq htopology hnames] at hend
  refine ⟨hsoftware, ⟨xs, fault, s'', hsent, hx, hend⟩, ?_⟩
  have hcompletes : (∃ r'', entries r' = .ok () r'') ↔ fault = none := by
    rw [hend]
    cases fault with
    | none => exact iff_of_true ⟨_, rfl⟩ rfl
    | some e => exact iff_of_false nofun nofun
  rw [hcompletes, hsent.fault_eq_none_iff]
  refine forall₂_congr fun n hn => ?_
  obtain ⟨_, target, hname, hon⟩ := hall _ hn
  cases hname
  rw [hsoftware n target hn hon, and_comm]
  refine and_congr_left fun _ => ⟨?_, hon.unique⟩
  rintro rfl
  exact hon

/-- A compilation of no services for a software switch and a hardware switch, in directories with
everything that it needs. -/
def mixedStart : Runner :=
  .start (.start ⟨[(["p", "service.json"], "\x7b\x7d"), (["p", "include", "define.pne"], ""),
        (["p", "include", "header.pne"], "struct d\x7b\x7d"),
        (["p", "include", "parser.pne"],
          "parser P(a b,c d,e f)\x7bstate start\x7btransition accept;\x7ddeparser D\x7b\x7d\x7d"),
        (["p", "path", "path.json"],
          "\x7b\"s\":\x7b\"n\":\x7b\"next\":\x7b\x7d,\"tables\":1,\"ip\":\"a\"\x7d," ++
          "\"m\":\x7b\"next\":\x7b\x7d,\"tables\":1,\"ip\":\"b\",\"resource\":\"ASIC\"" ++
          "\x7d\x7d\x7d"),
        (["c", "component", "rest", "rest_v1mod"], ""),
        (["c", "component", "rest", "rest_tna"], "")],
      [["p"], ["p", "include"], ["p", "path"], ["p", "path_out"], ["p", "log_out"],
        ["p", "pne_out"], ["c"], ["c", "component"],
        ["c", "component", "topo"], ["c", "component", "path"], ["c", "component", "code"],
        ["c", "component", "main"],
        ["c", "component", "rest"]]⟩ ["p"])
    "/c" (.str "pne_out/") "service.json" none true

/-- What can be seen of the compilation. -/
def mixedTest (_ : Unit) (r : Runner) : Bool :=
  r.session.peer.refusing.isEmpty && onlyGives not (Run.isDirectory "flows//" r.session) &&
  match r.topology with
  | some t =>
    (match t.items with
    | .ok names =>
      names.all (fun name => name.str?.all fun n => !n.toList.contains '/') && names.any
        (· == .str "m")
    | .error _ => true) &&
    match t.part (.str "m") with
    | .ok info => match info.get "resource" with
      | .ok resource => resource == .str "ASIC"
      | .error _ => false
    | .error _ => false
  | none => true

theorem mixedStart_passes : passes mixedTest (Runner.run false false false mixedStart) = true := by
  decide +kernel

/-- The compilation succeeds, and the deployment after it does not come to its end. -/
theorem deployed_until_hardware_mixed : ∃ r', Runner.run false false false mixedStart = .ok () r' ∧
    mixedStart.output = .str "pne_out/" ∧
      Run.isDirectory "flows//" r'.session = .ok false r'.session ∧
    r'.session.peer.refusing = [] ∧ ¬ ∃ r'', entries r' = .ok () r'' := by
  obtain ⟨_, r', hrun, htest⟩ := exists_ok_of_passes mixedStart_passes
  rw [mixedTest, Bool.and_eq_true, Bool.and_eq_true] at htest
  obtain ⟨⟨hpeer, hflows⟩, htest⟩ := htest
  have hpeer := isEmpty_iff.mp hpeer
  have hflows : Run.isDirectory "flows//" r'.session = .ok false r'.session := by
    rw [isDirectory_eq] at hflows ⊢
    exact congrArg (EStateM.Result.ok · r'.session) (by simpa using of_onlyGives hflows rfl)
  refine ⟨r', hrun, rfl, hflows, hpeer, ?_⟩
  obtain ⟨_, t, names, _, _, _, htopology, hnames, -, -, -, hdeployed⟩ :=
    deployed_until_hardware hrun rfl hflows hpeer
  rw [htopology] at htest
  simp only [hnames, Bool.and_eq_true] at htest
  obtain ⟨⟨hslash, hmem⟩, hresource⟩ := htest
  have hm : .str "m" ∈ names := by
    obtain ⟨name, hname, heq⟩ := any_eq_true.mp hmem
    exact Json.beq_str_iff.mp heq ▸ hname
  have hhardware : Target.IsOn t "m" .hardware := by
    cases hinfo : t.part (.str "m") with
    | error e =>
      rw [hinfo] at hresource
      cases hresource
    | ok info =>
      simp only [hinfo] at hresource
      cases hfound : info.get "resource" with
      | error e =>
        rw [hfound] at hresource
        cases hresource
      | ok resource =>
        rw [hfound] at hresource
        exact ⟨info, hinfo, hfound.trans (congrArg Except.ok (Json.beq_str_iff.mp hresource))⟩
  obtain ⟨-, -, hcompletes⟩ := hdeployed fun n hn => by
    simpa [show (Json.str n).str? = some n from rfl] using all_eq_true.mp hslash _ hn
  rw [hcompletes]
  intro hall
  cases hhardware.unique (hall "m" hm).1

end Deploy

end Pathwise
