import NyanSD.Broadcast
import NyanSD.Duplicates
import NyanSD.Foundation.TextLines
import NyanSD.SargeRecords

/-!
# The client program and the browser

Both ask for every service and print what is found. The client skips what it has already
listed; the browser reads its command line first, and prints its help instead where that is
asked for. Before either begins, the library has printed the byte order of the host.
-/

namespace NyanSD

open CommandLine (Word Reads)
open TextLines (newline)

def blank : UInt8 := ' '.toUInt8

/-- A literal with the end of a line behind it. -/
def line (text : String) : Bytes := ascii text.toList ++ [newline]

/-- The port of the servers. -/
def nyansdPort : UInt16 := 11310

/-- The query of both programs, with the filter it is made with. -/
def everything : NYSDQuery := ⟨.all, []⟩

/-- What `detectHostEndian` prints when `NyanSD::bb` is constructed, before `main` is called. -/
def detectedText (memory : BBEndianness) : Bytes :=
  match ByteBauble.detectHostEndian memory with
  | .le => line "Detected Host Little Endian."
  | .be => line "Detected Host Big Endian."

/-- What a program has written to `std::cout` when it is over, what it returns, and what it has
asked for. -/
structure Ran where
  out : Bytes
  code : Nat
  asked : List NYSDQuery
deriving DecidableEq, Repr

def serviceText (host : BBEndianness) (sv : NYSDService) : Bytes :=
  ascii "Got service ".toList ++ sv.service ++ ascii " on host ".toList ++ sv.hostname ++
    ascii ", IPv4 ".toList ++ ipv4UintToString host sv.ipv4 ++ ascii ", IPv6 ".toList ++ sv.ipv6 ++
    ascii ", port ".toList ++ StdString.decimal sv.port.toNat

def receivedText (responses : List NYSDService) : Bytes :=
  ascii "Received ".toList ++ StdString.decimal responses.length ++ line " responses."

/-! ## The client program -/

namespace ClientProgram

def skippedLine (sv : NYSDService) : Bytes :=
  ascii "Skipping duplicate entry for '".toList ++ sv.service ++ line "'"

def protocolText : NYSDProtocol → String
  | .tcp => " (TCP)"
  | .udp => " (UDP)"
  | .all => " (ALL)"

def serviceLine (host : BBEndianness) (sv : NYSDService) : Bytes :=
  serviceText host sv ++ line (protocolText sv.protocol)

/-- The loop that filters, with what it prints. -/
def filter : List NYSDService → List NYSDService → Bytes → List NYSDService × Bytes
  | [], uniques, out => (uniques, out)
  | response :: responses, uniques, out =>
      if isDuplicate uniques response then filter responses uniques (out ++ skippedLine response)
      else filter responses (uniques ++ [response]) out

def main (sockets : Sockets) (host : BBEndianness) (interfaces : List Interface) :
    Except StdException Ran := do
  let out := detectedText host
  let out := out ++ line "Sending query..."
  let (_, responses) ← sendQueryOn sockets nyansdPort host interfaces [everything] []
  let out := out ++ receivedText responses
  let (uniques, out) := filter responses [] out
  let out := uniques.foldl (fun out sv => out ++ serviceLine host sv) out
  return ⟨out ++ line "All done.", 0, [everything]⟩

end ClientProgram

/-! ## The browser -/

namespace Sarge

/-- The loop that finds the longest name. -/
def helpCount (args : List Argument) : Nat :=
  args.foldl (fun count a => if count < a.argLong.length then a.argLong.length else count) 1

/-- What stands in front of the description of an option. -/
def optionText (count : Nat) (a : Argument) : Bytes :=
  (if a.argShort.isEmpty then ascii "    ".toList
    else ascii ['-'] ++ a.argShort ++ ascii ", ".toList) ++ ascii "--".toList ++ a.argLong ++
    List.replicate (count - a.argLong.length) blank

def printHelp (s : Sarge) (description usage : Bytes) : Bytes :=
  let out := [newline] ++ description ++ [newline] ++ [newline] ++ line "Usage:" ++
    ascii ['\t'] ++ usage ++ [newline] ++ [newline] ++ line "Options: "
  -- no name is longer than the count, so there are at least three blanks behind each
  let count := helpCount s.args + 3
  s.args.foldl (fun out a => out ++ optionText count a ++ a.description ++ [newline]) out

end Sarge

namespace Browser

def usage : Bytes := ascii "nyansd-browse <options>".toList

def description : Bytes :=
  ascii "Browser client for the Nyanko Service Discovery (NyanSD) protocol.".toList

/-- The object behind its registrations. -/
def arguments : Sarge := Sarge.setArguments {} Sarge.browserArguments

def serviceLine (host : BBEndianness) (sv : NYSDService) : Bytes := serviceText host sv ++ [newline]

/-- The command line is the name of the executable and these arguments. -/
def main (sockets : Sockets) (host : BBEndianness) (interfaces : List Interface)
    (execName : Bytes) (args : List Bytes) : Except StdException Ran :=
  let out := detectedText host
  let (accepted, sarge) := arguments.parseArguments execName args
  if !accepted then .ok ⟨out, 1, []⟩
  else if sarge.exists (ascii "help".toList) then
    .ok ⟨out ++ sarge.printHelp description usage, 0, []⟩
  else do
    let out := out ++ if sarge.exists (ascii "all".toList) then
      line "Searching for all NyanSD services on the network..." else []
    let out := out ++ line "Searching for services..." ++ line "Sending query..."
    let (_, responses) ← sendQueryOn sockets nyansdPort host interfaces [everything] []
    let out := out ++ receivedText responses
    let out := responses.foldl (fun out sv => out ++ serviceLine host sv) out
    return ⟨out ++ line "All done.", 0, [everything]⟩

end Browser

/-! ## What the client lists -/

/-- What the servers on these networks answer to the query. -/
def answersOn (own : UInt16) (lans : List Lan) : List NYSDService :=
  lans.flatMap fun lan => (lan.replies own [everything]).flatMap Reply.records

/-- An answer is heard from every server, with every service that has an address of its own. -/
theorem mem_answersOn {own : UInt16} {lans : List Lan} {lan : Lan} (hlan : lan ∈ lans)
    {server : Server} (hserver : server ∈ lan.servers) {sv : NYSDService}
    (hsv : sv ∈ server.services) (hipv4 : sv.ipv4 ≠ 0) : sv ∈ answersOn own lans := by
  have hreply : ⟨server, lan.client own, []⟩ ∈ lan.replies own [everything] :=
    List.mem_flatMap.mpr ⟨server, hserver, List.mem_singleton_self _⟩
  have hrecord : sv ∈ Reply.records ⟨server, lan.client own, []⟩ :=
    List.mem_filterMap.mpr ⟨sv, hsv, filledIn_of_ipv4_ne_zero _ _ hipv4⟩
  exact List.mem_flatMap.mpr ⟨lan, hlan, List.mem_flatMap.mpr ⟨_, hreply, hrecord⟩⟩

/-- Both programs hear the same. -/
theorem sendQueryOn_everything (sockets : Sockets) (lans : List Lan) (own : UInt16)
    (host : BBEndianness)
    (hanswer : ∀ lan ∈ lans, ∀ reply ∈ lan.replies own [everything], reply.Fits)
    (buffer heap : Nat → UInt8) :
    sendQueryOn sockets nyansdPort host (lans.map (Lan.interface own buffer heap)) [everything] [] =
      .ok (true, answersOn own lans) :=
  sendQueryOn_lans sockets lans own nyansdPort host (by decide) (by decide) (by decide) (by decide)
    hanswer buffer heap

namespace ClientProgram

/-- What the loop neither had nor keeps, it has skipped. -/
theorem filter_eq (responses uniques : List NYSDService) (out : Bytes) :
    ∃ skipped : List NYSDService,
      filter responses uniques out =
        (responses.foldl pushUnique uniques, out ++ skipped.flatMap skippedLine) ∧
      ∀ sv, skipped.count sv + (responses.foldl pushUnique uniques).count sv =
        uniques.count sv + responses.count sv := by
  induction responses generalizing uniques out with
  | nil => exact ⟨[], by simp [filter], by simp⟩
  | cons response responses ih =>
      rw [filter, List.foldl_cons, pushUnique]
      split
      next hduplicate =>
        obtain ⟨skipped, hfilter, hcount⟩ := ih uniques (out ++ skippedLine response)
        refine ⟨response :: skipped, ?_, ?_⟩
        · rw [hfilter, List.flatMap_cons, List.append_assoc]
        · intro sv
          have htail := hcount sv
          rw [List.count_cons, List.count_cons]
          omega
      next hnew =>
        -- one more among those that are kept, and one less to come
        obtain ⟨skipped, hfilter, hcount⟩ := ih (uniques ++ [response]) out
        refine ⟨skipped, hfilter, ?_⟩
        intro sv
        have htail := hcount sv
        rw [List.count_append, List.count_singleton] at htail
        rw [List.count_cons]
        omega

/-- On whatever networks the client is, if the answers arrive whole, it lists every service that
it hears of once, in the order in which they first came, and says as often as one comes again
that it skips it. A service with an address of its own is listed once, on however many networks
its server is. -/
theorem client_lists (sockets : Sockets) (lans : List Lan) (own : UInt16) (host : BBEndianness)
    (hanswer : ∀ lan ∈ lans, ∀ reply ∈ lan.replies own [everything], reply.Fits)
    (buffer heap : Nat → UInt8) :
    (∃ skipped : List NYSDService,
      main sockets host (lans.map (Lan.interface own buffer heap)) =
        .ok ⟨detectedText host ++ line "Sending query..." ++ receivedText (answersOn own lans) ++
          skipped.flatMap skippedLine ++
          (answersOn own lans).eraseDups.flatMap (serviceLine host) ++ line "All done.", 0,
          [everything]⟩ ∧
      ∀ sv, skipped.count sv = (answersOn own lans).count sv - 1) ∧
    ∀ lan ∈ lans, ∀ server ∈ lan.servers, ∀ sv ∈ server.services, sv.ipv4 ≠ 0 →
      (answersOn own lans).eraseDups.count sv = 1 := by
  have honce : ∀ sv ∈ answersOn own lans, (answersOn own lans).eraseDups.count sv = 1 := by
    intro sv hmem
    exact List.count_eq_one_of_mem (List.nodup_eraseDups _) (List.mem_eraseDups.mpr hmem)
  constructor
  · obtain ⟨skipped, hfilter, hcount⟩ := filter_eq (answersOn own lans) []
      (detectedText host ++ line "Sending query..." ++ receivedText (answersOn own lans))
    have huniques : (answersOn own lans).foldl pushUnique [] = (answersOn own lans).eraseDups :=
      congrFun filterDuplicates_eq _
    rw [huniques] at hfilter hcount
    refine ⟨skipped, ?_, ?_⟩
    · rw [main, sendQueryOn_everything sockets lans own host hanswer]
      dsimp only [bind, Except.bind, pure, Except.pure]
      rw [hfilter, List.foldl_append_eq_append, ← List.flatMap_def]
    · intro sv
      have htotal := hcount sv
      rw [List.count_nil, Nat.zero_add] at htotal
      by_cases hmem : sv ∈ answersOn own lans
      · rw [honce sv hmem] at htotal
        omega
      · rw [List.count_eq_zero_of_not_mem hmem] at htotal ⊢
        omega
  · intro lan hlan server hserver sv hsv hipv4
    exact honce sv (mem_answersOn hlan hserver hsv hipv4)

/-- The laptop is on its network twice. -/
theorem client_lists_office :
    ∃ skipped : List NYSDService, skipped.Perm [printer, { printer with ipv6 := [] }] ∧
      main plainSockets .be
          ([officeLan, officeLan].map (Lan.interface 4004 (fun _ => 0) fun _ => 0)) =
        .ok ⟨line "Detected Host Big Endian." ++ line "Sending query..." ++
          line "Received 4 responses." ++ skipped.flatMap skippedLine ++
          [printer, { printer with ipv6 := [] }].flatMap (serviceLine .be) ++ line "All done.", 0,
          [everything]⟩ := by
  have hanswers : answersOn 4004 [officeLan, officeLan] =
      [printer, { printer with ipv6 := [] }] ++ [printer, { printer with ipv6 := [] }] := by
    decide
  have honce : (answersOn 4004 [officeLan, officeLan]).eraseDups =
      [printer, { printer with ipv6 := [] }] := by
    decide
  have htext : receivedText (answersOn 4004 [officeLan, officeLan]) =
      line "Received 4 responses." := by
    rw [hanswers]
    decide
  obtain ⟨⟨skipped, hprinted, hskipped⟩, -⟩ :=
    @client_lists plainSockets [officeLan, officeLan] 4004 .be (by decide) (fun _ => 0) fun _ => 0
  rw [htext, honce] at hprinted
  refine ⟨skipped, ?_, hprinted⟩
  apply List.perm_iff_count.mpr
  intro sv
  have hle := List.nodup_iff_count_le_one.mp
    (show [printer, { printer with ipv6 := [] }].Nodup by decide) sv
  rw [hskipped, hanswers, List.count_append]
  omega

end ClientProgram

/-! ## What the browser answers -/

theorem Argument.hasName_iff {a : Argument} (hshort : a.argShort ≠ []) (hlong : a.argLong ≠ [])
    (name : Bytes) : a.hasName name = true ↔ name = a.argShort ∨ name = a.argLong := by
  have hnames : a.names = [a.argShort, a.argLong] := by
    rw [Argument.names, List.filter_eq_self]
    simp [hshort, hlong]
  rw [← Argument.mem_names_iff, hnames, List.mem_pair]

/-- A name stands for its argument alone. -/
theorem DistinctNames.exists_iff {specs : List Argument} (hdistinct : DistinctNames specs)
    {words : List (Word UInt8)} {s : Sarge} (hrecorded : Sarge.Recorded specs words s)
    {a : Argument} (hmem : a ∈ specs) {name : Bytes} (hname : a.hasName name = true) :
    s.exists name = true ↔ ∃ mention ∈ words.flatMap Word.mentions, a.hasName mention = true := by
  rw [hrecorded.exists_iff]
  constructor
  · rintro ⟨b, hb, hbname, hmentioned⟩
    have hfirst := (hdistinct.find?_iff name a).mpr ⟨hmem, hname⟩
    have hsecond := (hdistinct.find?_iff name b).mpr ⟨hb, hbname⟩
    obtain rfl := Option.some.inj (hfirst.symm.trans hsecond)
    exact hmentioned
  · intro hmentioned
    exact ⟨a, hmem, hname, hmentioned⟩

namespace Sarge

theorem tally_of_reads {specs : List Argument} {args : List Bytes} {words : List (Word UInt8)}
    (hreads : Reads SargeParse.dash (registered specs) args words) (execName : Bytes) :
    ∃ s, (setArguments {} specs).parseArguments execName args = (true, { s with parsed := true }) ∧
      Tally (setArguments {} specs) words s := by
  have haccepted := (parseArguments_accepts specs execName args).mpr ⟨words, hreads⟩
  rw [← takesValue_setArguments specs] at hreads
  have hleft := parseArguments_of_reads hreads execName
  have htally : Tally { setArguments {} specs with execName } words _ :=
    tally_foldl_record hreads.known
  refine ⟨_, Prod.ext haccepted hleft, ?_⟩
  exact ⟨htally.argNames, htally.flags, htally.parsed, htally.textArguments,
    htally.flagCounter, htally.args⟩

/-- The help depends on what was registered, not on what was read. -/
theorem printHelp_congr {s s' : Sarge}
    (hargs : s.args.map Argument.unread = s'.args.map Argument.unread)
    (description usage : Bytes) :
    s.printHelp description usage = s'.printHelp description usage := by
  have hcount : ∀ args, helpCount args = helpCount (args.map Argument.unread) := by
    intro args
    rw [helpCount, helpCount, List.foldl_map]
    rfl
  have hprint : ∀ (args : List Argument) (count : Nat) (out : Bytes),
      args.foldl (fun out a => out ++ optionText count a ++ a.description ++ [newline]) out =
        (args.map Argument.unread).foldl
          (fun out a => out ++ optionText count a ++ a.description ++ [newline]) out := by
    intro args count out
    rw [List.foldl_map]
    rfl
  rw [printHelp, printHelp, hprint, hprint s'.args, hcount, hcount s'.args, hargs]

theorem Tally.printHelp {specs : List Argument} {words : List (Word UInt8)} {s : Sarge}
    (htally : Tally (setArguments {} specs) words s) (description usage : Bytes) :
    s.printHelp description usage = (setArguments {} specs).printHelp description usage := by
  apply printHelp_congr
  apply List.ext_getElem?
  intro arg
  rw [List.getElem?_map, htally.args, List.getElem?_map, Option.map_map]
  rfl

end Sarge

namespace Browser

/-- The flag is mentioned by one of its names. -/
def Mentions (words : List (Word UInt8)) (a : Argument) : Prop :=
  ∃ name ∈ words.flatMap Word.mentions, name = a.argShort ∨ name = a.argLong

instance (words : List (Word UInt8)) (a : Argument) : Decidable (Mentions words a) :=
  inferInstanceAs (Decidable (∃ name ∈ words.flatMap Word.mentions, _ ∨ _))

theorem exists_iff_mentions {words : List (Word UInt8)} {s : Sarge}
    (hrecorded : Sarge.Recorded Sarge.browserArguments words s) {a : Argument}
    (hmem : a ∈ Sarge.browserArguments) : s.exists a.argLong = true ↔ Mentions words a := by
  have hnamed : ∀ a ∈ Sarge.browserArguments, a.argShort ≠ [] ∧ a.argLong ≠ [] := by decide
  have hdistinct : DistinctNames Sarge.browserArguments := distinctNames_of_nodup (by decide)
  obtain ⟨hshort, hlong⟩ := hnamed a hmem
  have hname : a.hasName a.argLong = true := (Argument.hasName_iff hshort hlong _).mpr (.inr rfl)
  rw [hdistinct.exists_iff hrecorded hmem hname, Mentions]
  simp only [Argument.hasName_iff hshort hlong]

/-- The arguments of the browser by their names. -/
def help : Argument := Sarge.browserArguments[0]

def all : Argument := Sarge.browserArguments[1]

/-- What the browser does where its command line is read so and these services are found. -/
def answer (host : BBEndianness) (words : List (Word UInt8)) (found : List NYSDService) : Ran :=
  let out := detectedText host
  if Mentions words help then ⟨out ++ arguments.printHelp description usage, 0, []⟩
  else
    let announced := if Mentions words all then
      line "Searching for all NyanSD services on the network..." else []
    ⟨out ++ announced ++ line "Searching for services..." ++ line "Sending query..." ++
      receivedText found ++ found.flatMap (serviceLine host) ++ line "All done.", 0, [everything]⟩

/-- On whatever networks the browser is, if the answers there arrive whole, a command line that
can be read is answered, by the help where that is mentioned, and else by all services that the
servers answer with. One that cannot be read makes it fail without a word to the network, with
nothing printed but the byte order of the host. -/
theorem browser_answers (sockets : Sockets) (lans : List Lan) (own : UInt16) (host : BBEndianness)
    (hanswer : ∀ lan ∈ lans, ∀ reply ∈ lan.replies own [everything], reply.Fits)
    (buffer heap : Nat → UInt8) (execName : Bytes) (args : List Bytes) :
    let ran := main sockets host (lans.map (Lan.interface own buffer heap)) execName args
    (∀ words, Reads SargeParse.dash (registered Sarge.browserArguments) args words →
      ran = .ok (answer host words (answersOn own lans))) ∧
    ((∀ words, ¬ Reads SargeParse.dash (registered Sarge.browserArguments) args words) →
      ran = .ok ⟨detectedText host, 1, []⟩) := by
  dsimp only
  constructor
  · intro words hreads
    obtain ⟨s, hparsed, htally⟩ := Sarge.tally_of_reads hreads execName
    have hdistinct : DistinctNames Sarge.browserArguments := distinctNames_of_nodup (by decide)
    have hrecorded := htally.recorded hdistinct
    have hhelp := exists_iff_mentions hrecorded (show help ∈ Sarge.browserArguments by decide)
    have hall := exists_iff_mentions hrecorded (show all ∈ Sarge.browserArguments by decide)
    have hprint : { s with parsed := true }.printHelp description usage =
        arguments.printHelp description usage := htally.printHelp description usage
    rw [show help.argLong = ascii "help".toList from rfl] at hhelp
    rw [show all.argLong = ascii "all".toList from rfl] at hall
    rw [main, arguments, hparsed]
    dsimp only
    rw [Bool.not_true, if_neg Bool.false_ne_true, answer]
    by_cases hmentioned : Mentions words help
    · rw [if_pos (hhelp.mpr hmentioned), if_pos hmentioned, hprint]
    · rw [if_neg (mt hhelp.mp hmentioned), if_neg hmentioned,
        sendQueryOn_everything sockets lans own host hanswer]
      dsimp only [bind, Except.bind, pure, Except.pure]
      rw [List.foldl_append_eq_append, ← List.flatMap_def]
      simp only [hall]
  · intro hnone
    have hrejected : (arguments.parseArguments execName args).1 = false := by
      rw [← Bool.not_eq_true, arguments, Sarge.parseArguments_accepts]
      rintro ⟨words, hreads⟩
      exact hnone words hreads
    rw [main]
    simp only [hrejected]
    rfl

/-- `-a` is read, and `-x` is not. -/
theorem browser_answers_office :
    let ran := main plainSockets .le
      ([officeLan].map (Lan.interface 4004 (fun _ => 0) fun _ => 0)) []
    ran [ascii "-a".toList] =
        .ok ⟨line "Detected Host Little Endian." ++
          line "Searching for all NyanSD services on the network..." ++
          line "Searching for services..." ++ line "Sending query..." ++
          line "Received 2 responses." ++
          [printer, { printer with ipv6 := [] }].flatMap (serviceLine .le) ++ line "All done.", 0,
          [everything]⟩ ∧
      ran [ascii "-x".toList] = .ok ⟨line "Detected Host Little Endian.", 1, []⟩ := by
  have hanswers := fun args => @browser_answers plainSockets [officeLan] 4004 .le (by decide)
    (fun _ => 0) (fun _ => 0) [] args
  have hfound : answersOn 4004 [officeLan] = [printer, { printer with ipv6 := [] }] := by decide
  have htext : receivedText [printer, { printer with ipv6 := [] }] =
      line "Received 2 responses." := by
    decide
  constructor
  · let words : List (Word UInt8) := [.item (ascii "-a".toList) [ascii ['a']] none]
    have hreads : Reads SargeParse.dash (registered Sarge.browserArguments) [ascii "-a".toList]
        words := by
      have hcluster : CommandLine.Cluster (registered Sarge.browserArguments) (ascii ['a']) :=
        ⟨List.forall_mem_singleton.mpr rfl, List.forall_mem_nil _⟩
      refine .plain (.short ?_ hcluster) ?_ .done
      · decide
      · rw [CommandLine.TakesValue]
        decide
    have hran := (hanswers [ascii "-a".toList]).1 words hreads
    rw [hfound, answer, if_neg (by decide), if_pos (by decide), htext] at hran
    exact hran
  · apply (hanswers [ascii "-x".toList]).2
    intro words hreads
    have haccepted := (Sarge.parseArguments_accepts _ [] _).mpr ⟨words, hreads⟩
    exact absurd haccepted (by decide)

end Browser

end NyanSD
