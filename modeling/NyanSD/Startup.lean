import NyanSD.Daemon

/-!
# How the daemon gets through its files

A file that cannot be parsed and a section that cannot be registered end the daemon; a
section without a name or with an unknown protocol is passed over. The sections have
these fates on their own, and the loops do no more than stop at the first that ends
them: what is in front has been registered, nothing behind is looked at.
-/

namespace NyanSD.Daemon

open StdString

/-- What a section, or a file that cannot be parsed, does to the daemon. -/
inductive Fate
  | skipped
  | registers (entry : Entry) (sv : NYSDService)
  | ends (why : Stop)

namespace Fate

def ending : Fate → Option Stop
  | ends why => some why
  | _ => none

def service : Fate → Option NYSDService
  | registers _ sv => some sv
  | _ => none

def entry : Fate → Option Entry
  | registers entry _ => some entry
  | _ => none

end Fate

section

variable (host : BBEndianness) (hostName : Bytes)

/-- The fate of a section. -/
def Entry.fate (entry : Entry) : Fate :=
  match readService host entry.serviceFile entry.title with
  | .error e => .ends (.threw e)
  | .ok none => .skipped
  | .ok (some sv) =>
      if Registration.Accepted ⟨sv, hostName⟩ then
        .registers entry (Registration.record ⟨sv, hostName⟩)
      else .ends (.returned 1)

def INIReader.fates (serviceFile : INIReader) : List Fate :=
  if serviceFile.parseError ≠ 0 then [.ends (.returned 1)]
  else serviceFile.sections.map fun title => Entry.fate host hostName ⟨serviceFile, title⟩

/-- The fates of all sections, file by file. -/
def fates (serviceFiles : List INIReader) : List Fate :=
  serviceFiles.flatMap (INIReader.fates host hostName)

end

/-- Where these fates lead. -/
def Startup.after (s : Startup) : List Fate → Startup
  | [] => s
  | .skipped :: rest => s.after rest
  | .registers entry sv :: rest =>
      Startup.after
        { s with services := s.services ++ [sv], registered := s.registered ++ [entry] } rest
  | .ends why :: _ => { s with stopped := some why }

namespace Startup

/-- What comes behind is reached unless the daemon has ended. -/
theorem after_append (s : Startup) (first second : List Fate) (hgoes : s.stopped = none) :
    s.after (first ++ second) =
      if (s.after first).stopped.isSome then s.after first else (s.after first).after second := by
  induction first generalizing s with
  | nil => simp [after, hgoes]
  | cons fate rest ih =>
      cases fate with
      | skipped => exact ih s hgoes
      | registers entry sv => exact ih _ hgoes
      | ends why => rfl

/-- The first fate that ends the daemon is why it stops, and those in front of it are done. -/
theorem after_eq (s : Startup) (list : List Fate) (hgoes : s.stopped = none) :
    s.after list =
      { services := s.services ++
          (list.takeWhile fun fate => fate.ending.isNone).filterMap Fate.service
        registered := s.registered ++
          (list.takeWhile fun fate => fate.ending.isNone).filterMap Fate.entry
        stopped := list.findSome? Fate.ending } := by
  induction list generalizing s with
  | nil => simp [after, ← hgoes]
  | cons fate rest ih =>
      cases fate with
      | skipped =>
          rw [after, ih s hgoes]
          rfl
      | registers entry sv =>
          have hrest := ih { s with services := s.services ++ [sv],
                                    registered := s.registered ++ [entry] } hgoes
          rw [after, hrest]
          simp [Fate.ending, Fate.service, Fate.entry, List.findSome?_cons]
      | ends why => simp [after, Fate.ending, List.findSome?_cons]

end Startup

section

variable {host : BBEndianness} {hostName : Bytes}

theorem addSections_eq (serviceFile : INIReader) (titles : List Bytes) (s : Startup) :
    addSections host hostName serviceFile titles s =
      s.after (titles.map fun title => Entry.fate host hostName ⟨serviceFile, title⟩) := by
  induction titles generalizing s with
  | nil => rfl
  | cons title rest ih =>
      rw [addSections, List.map_cons, Entry.fate]
      cases hread : readService host serviceFile title with
      | error e => rfl
      | ok read =>
          cases read with
          | none => exact ih s
          | some sv =>
              dsimp only
              rw [addService_eq s.services ⟨sv, hostName⟩]
              by_cases haccepted : Registration.Accepted ⟨sv, hostName⟩
              · rw [if_pos haccepted, if_pos haccepted]
                exact ih _
              · -- a service that is refused ends the daemon
                rw [if_neg haccepted, if_neg haccepted]
                rfl

theorem addFiles_eq (serviceFiles : List INIReader) (s : Startup) (hgoes : s.stopped = none) :
    addFiles host hostName serviceFiles s = s.after (fates host hostName serviceFiles) := by
  induction serviceFiles generalizing s with
  | nil => rfl
  | cons serviceFile rest ih =>
      rw [addFiles, fates, List.flatMap_cons, INIReader.fates]
      by_cases herror : serviceFile.parseError ≠ 0
      · rw [if_pos herror, if_pos herror]
        rfl
      · rw [if_neg herror, if_neg herror, addSections_eq, Startup.after_append _ _ _ hgoes]
        dsimp only
        cases hstopped : (s.after (serviceFile.sections.map fun title =>
            Entry.fate host hostName ⟨serviceFile, title⟩)).stopped with
        | none => exact ih _ hstopped
        | some why => rfl

end

/-- The files and the sections go as their fates say. -/
theorem addServices_after (host : BBEndianness) (hostName : Bytes)
    (serviceFiles : List INIReader) :
    addServices host hostName serviceFiles =
      Startup.after {} (fates host hostName serviceFiles) :=
  addFiles_eq serviceFiles {} rfl

/-- The daemon stops at the first file that cannot be parsed or section that cannot be
registered. It has registered every section in front of it that is not skipped, one service
each in their order, and none behind. -/
theorem addServices_eq (host : BBEndianness) (hostName : Bytes) (serviceFiles : List INIReader) :
    let list := fates host hostName serviceFiles
    let before := list.takeWhile fun fate => fate.ending.isNone
    addServices host hostName serviceFiles =
      { services := before.filterMap Fate.service
        registered := before.filterMap Fate.entry
        stopped := list.findSome? Fate.ending } := by
  rw [addServices_after, Startup.after_eq _ _ rfl]
  rfl

/-- The daemon gets to its listener when nothing ends it, and then it serves every section that
is not skipped. -/
theorem addServices_of_no_ending {host : BBEndianness} {hostName : Bytes}
    {serviceFiles : List INIReader}
    (hnone : ∀ fate ∈ fates host hostName serviceFiles, fate.ending = none) :
    (addServices host hostName serviceFiles).stopped = none ∧
      (addServices host hostName serviceFiles).services =
        (fates host hostName serviceFiles).filterMap Fate.service := by
  have hall : (fates host hostName serviceFiles).takeWhile (fun fate => fate.ending.isNone) =
      fates host hostName serviceFiles := by
    apply List.takeWhile_eq_self_iff.mpr
    intro fate hfate
    rw [hnone fate hfate]
    rfl
  rw [addServices_after, Startup.after_eq _ _ rfl, hall]
  exact ⟨List.findSome?_eq_none_iff.mpr hnone, rfl⟩

end NyanSD.Daemon
