import LineTokens.Proofs.Analysis.Buffered
import LineTokens.Proofs.Buffer.Framing

/-! What the worker does, as a list of events: the passes that it begins, their calls of the
tokenizer, and how they end. `Fits` says what an event may be after a result has been published:
only lines that have been changed since are tokenized, and the patch of a pass that comes to its end
has one entry for each of them. `Turn` takes the steps of the worker apart, each with its event. -/

namespace LineTokens

/-- A commit from version `a` on and before version `b` has changed the line. -/
def Commits.Names (commits : Commits) (a b line : Nat) : Prop :=
  ∃ k change, a ≤ k ∧ k < b ∧ commits[k]? = some change ∧ line ∈ change.changedLines

theorem Commits.names_append {commits : Commits} {a b line : Nat} (hb : b ≤ commits.length)
    (more : Commits) : Names (commits ++ more) a b line ↔ commits.Names a b line := by
  constructor
  · rintro ⟨k, change, hak, hkb, hk, hline⟩
    rw [List.getElem?_append_left (by omega)] at hk
    exact ⟨k, change, hak, hkb, hk, hline⟩
  · rintro ⟨k, change, hak, hkb, hk, hline⟩
    exact ⟨k, change, hak, hkb, (List.getElem?_append_left (by omega)).trans hk, hline⟩

theorem Commits.not_names_self (commits : Commits) (a line : Nat) : ¬commits.Names a a line := by
  rintro ⟨k, change, hak, hka, -⟩
  omega

/-- What the worker does with passes. `completed` comes with the result that is published and with
the patch that is pending then. -/
inductive PassEvent
  | began (snapshot : Snapshot)
  | called (snapshot : Snapshot) (call : Call)
  | superseded
  | completed (published : AnalysisResult) (patch : Patch)
deriving DecidableEq

namespace PassEvent

def call? : PassEvent → Option Call
  | called _ call => some call
  | began _ | superseded | completed .. => none

def published? : PassEvent → Option AnalysisResult
  | completed published _ => some published
  | began _ | called .. | superseded => none

/-- What an event may be after `base` has been published. Only lines that have been changed since
are tokenized, and a patch has one entry for each of them. -/
def Fits (commits : Commits) (base : AnalysisResult) : PassEvent → Prop
  | began snapshot => commits.Held snapshot
  | called snapshot call => commits.Held snapshot ∧ snapshot.line? call.line = some call.text ∧
    commits.Names base.snapshotVersion snapshot.version call.line
  | superseded => True
  | completed published patch => published.snapshotVersion ≤ commits.length ∧
    published.version = base.version + 1 ∧ patch.version = published.version ∧
    (patch.entries.map (·.line)).Pairwise (· < ·) ∧
    ∀ line, line ∈ patch.entries.map (·.line) ↔
      commits.Names base.snapshotVersion published.snapshotVersion line

/-- The result published last, after `base`. -/
def lastPublished (base : AnalysisResult) (events : List PassEvent) : AnalysisResult :=
  events.foldl (fun base event => event.published?.getD base) base

/-- Each event fits what has been published before it. -/
def Lawful (commits : Commits) (base : AnalysisResult) : List PassEvent → Prop
  | [] => True
  | event :: rest => event.Fits commits base ∧ Lawful commits (event.published?.getD base) rest

variable {commits : Commits} {base : AnalysisResult} {event : PassEvent} {events : List PassEvent}

theorem Fits.append (h : event.Fits commits base) (more : Commits) :
    event.Fits (commits ++ more) base := by
  cases event with
  | began snapshot => exact Commits.Held.append h more
  | called snapshot call =>
    obtain ⟨hheld, hline, hnames⟩ := h
    exact ⟨hheld.append more, hline, (Commits.names_append hheld.version_le more).mpr hnames⟩
  | superseded => trivial
  | completed published patch =>
    obtain ⟨hle, hversion, hpatch, hascending, hlines⟩ := h
    refine ⟨hle.trans (by simp), hversion, hpatch, hascending, fun line => ?_⟩
    rw [Commits.names_append hle]
    exact hlines line

theorem Lawful.append_commits (h : Lawful commits base events) (more : Commits) :
    Lawful (commits ++ more) base events := by
  induction events generalizing base with
  | nil => trivial
  | cons event rest ih => exact ⟨h.1.append more, ih h.2⟩

theorem lawful_append {more : List PassEvent} : Lawful commits base (events ++ more) ↔
    Lawful commits base events ∧ Lawful commits (lastPublished base events) more := by
  induction events generalizing base with
  | nil => simp [Lawful, lastPublished]
  | cons event rest ih =>
    rw [List.cons_append, Lawful, Lawful, ih, and_assoc]
    rfl

theorem lastPublished_append (base : AnalysisResult) (events more : List PassEvent) :
    lastPublished base (events ++ more) = lastPublished (lastPublished base events) more :=
  List.foldl_append

/-- A commit that the snapshot published last includes is included in one of the passes since
`base`, the patch of which has an entry for each line that the commit has changed. -/
theorem Lawful.exists_completed (h : Lawful commits base events) {k : Nat} {change : Change}
    (hk : commits[k]? = some change) (hfrom : base.snapshotVersion ≤ k)
    (hto : k < (lastPublished base events).snapshotVersion) :
    ∃ published patch, .completed published patch ∈ events ∧ k < published.snapshotVersion ∧
      ∀ line ∈ change.changedLines, line ∈ patch.entries.map (·.line) := by
  induction events generalizing base with
  | nil => exact absurd hto (Nat.not_lt.mpr hfrom)
  | cons event rest ih =>
    have hlater : (event.published?.getD base).snapshotVersion ≤ k →
        ∃ published patch, .completed published patch ∈ event :: rest ∧
          k < published.snapshotVersion ∧
          ∀ line ∈ change.changedLines, line ∈ patch.entries.map (·.line) := by
      intro hle
      obtain ⟨published, patch, hmem, hrest⟩ := ih h.2 hle hto
      exact ⟨published, patch, List.mem_cons_of_mem _ hmem, hrest⟩
    cases event with
    | began | called | superseded => exact hlater hfrom
    | completed published patch =>
      obtain ⟨⟨-, -, -, -, hlines⟩, -⟩ := h
      by_cases hlt : k < published.snapshotVersion
      · exact ⟨published, patch, List.mem_cons_self, hlt, fun line hline =>
          (hlines line).mpr ⟨k, change, hfrom, hlt, hk, hline⟩⟩
      · exact hlater (Nat.le_of_not_lt hlt)

end PassEvent

namespace Analyzer

variable {tokenizer : Tokenizer} {a b : Analyzer} {commits : Commits} {gate : Gate}

/-! ### Events of the worker's steps -/

/-- What a step of the worker from `a` to `b` comes to. -/
def event? (a b : Analyzer) : Option PassEvent :=
  match a.phase, b.phase with
  | .flagged _ _, .checking pass => some (.began pass.snapshot)
  | .checking _, .calling pass line text => some (.called pass.snapshot ⟨line, text⟩)
  | .checking _, .settling _ => some .superseded
  | .storingResult _ result, .settling _ => a.patch.map (.completed result)
  | _, _ => none

/-- The events of the steps that `runFor` makes. -/
def eventsFor (tokenizer : Tokenizer) (gate : Gate) : Nat → Analyzer → List PassEvent
  | 0, _ => []
  | steps + 1, a =>
    match a.workerStep tokenizer with
    | none => []
    | some b =>
      (a.event? b).toList ++
        match b.runningCall?, gate with
        | some _, .closed => []
        | _, _ => eventsFor tokenizer gate steps b

/-- The steps of the worker, phase by phase, with what they come to. -/
inductive Turn (tokenizer : Tokenizer) (a : Analyzer) : Option PassEvent → Analyzer → Prop
  | drain (waiting : a.phase = .waiting) (asked : a.queue ≠ []) : Turn tokenizer a none a.drain
  | load (consumed : Nat) (drained : a.phase = .drained consumed) :
      Turn tokenizer a none { a with phase := .flagged consumed a.activeFlag }
  | abandon (consumed flag : Nat) (flagged : a.phase = .flagged consumed flag)
      (unseen : a.newest = none) : Turn tokenizer a none { a with phase := .settling consumed }
  | begin (consumed flag : Nat) (snapshot : Snapshot) (flagged : a.phase = .flagged consumed flag)
      (newest_eq : a.newest = some snapshot) :
      Turn tokenizer a (some (.began snapshot))
        { a with phase := .checking (.start consumed flag snapshot a.result a.carried) }
  | supersede (pass : Pass) (checking : a.phase = .checking pass)
      (tripped : a.flags.isTripped pass.flag = true) :
      Turn tokenizer a (some .superseded) { a with phase := .settling pass.consumed }
  | finish (pass : Pass) (checking : a.phase = .checking pass)
      (untripped : a.flags.isTripped pass.flag = false) (left_eq : pass.left = []) :
      Turn tokenizer a none
        { a with phase := .storingPatch pass.consumed pass.result pass.patch }
  | skip (pass : Pass) (line : Nat) (left : List Nat) (checking : a.phase = .checking pass)
      (untripped : a.flags.isTripped pass.flag = false) (left_eq : pass.left = line :: left)
      (missing : pass.snapshot.line? line = none) :
      Turn tokenizer a none { a with phase := .checking { pass with left } }
  | call (pass : Pass) (line : Nat) (left : List Nat) (text : List Char)
      (checking : a.phase = .checking pass) (untripped : a.flags.isTripped pass.flag = false)
      (left_eq : pass.left = line :: left) (present : pass.snapshot.line? line = some text) :
      Turn tokenizer a (some (.called pass.snapshot ⟨line, text⟩))
        { a with phase := .calling { pass with left } line text }
  | enter (pass : Pass) (line : Nat) (text : List Char)
      (calling : a.phase = .calling pass line text) :
      Turn tokenizer a none
        { a with phase := .checking (pass.enter line (tokenizer line text)) }
  | storePatch (consumed : Nat) (result : AnalysisResult) (patch : Patch)
      (storing : a.phase = .storingPatch consumed result patch) :
      Turn tokenizer a none
        { a with patch := some patch, phase := .storingResult consumed result }
  | publish (consumed : Nat) (result : AnalysisResult)
      (storing : a.phase = .storingResult consumed result) :
      Turn tokenizer a (a.patch.map (.completed result))
        { a with result, carried := .empty, phase := .settling consumed }
  | settle (consumed : Nat) (settling : a.phase = .settling consumed) :
      Turn tokenizer a none { a with settled := a.settled + consumed, phase := .waiting }

theorem Turn.step_eq {event : Option PassEvent} (h : a.Turn tokenizer event b) :
    a.workerStep tokenizer = some b ∧ a.event? b = event := by
  cases h with
  | drain hwaiting hasked =>
    rw [workerStep, event?, hwaiting]
    exact ⟨if_neg (by simpa using hasked), rfl⟩
  | abandon consumed flag hflagged hunseen =>
    simp only [workerStep, event?, hflagged, hunseen]
    trivial
  | begin consumed flag snapshot hflagged hnewest =>
    simp only [workerStep, event?, hflagged, hnewest]
    trivial
  | supersede pass hchecking htripped =>
    simp only [workerStep, event?, hchecking, check, htripped, if_true]
    trivial
  | finish pass hchecking huntripped hleft =>
    simp only [workerStep, event?, hchecking, check, huntripped, hleft, Bool.false_eq_true,
      if_false]
    trivial
  | skip pass line left hchecking huntripped hleft hmissing =>
    simp only [workerStep, event?, hchecking, check, huntripped, hleft, hmissing,
      Bool.false_eq_true, if_false]
    trivial
  | call pass line left text hchecking huntripped hleft hpresent =>
    simp only [workerStep, event?, hchecking, check, huntripped, hleft, hpresent,
      Bool.false_eq_true, if_false]
    trivial
  | load _ hphase | enter _ _ _ hphase | storePatch _ _ _ hphase | publish _ _ hphase
  | settle _ hphase =>
    simp only [workerStep, event?, hphase]
    trivial

theorem turn_of_step (hstep : a.workerStep tokenizer = some b) :
    a.Turn tokenizer (a.event? b) b := by
  suffices hexists : ∃ event c, a.Turn tokenizer event c by
    obtain ⟨event, c, hturn⟩ := hexists
    obtain ⟨hstep', hevent⟩ := hturn.step_eq
    obtain rfl := Option.some.inj (hstep.symm.trans hstep')
    rwa [hevent]
  cases hphase : a.phase with
  | waiting =>
    refine ⟨_, _, .drain hphase fun hempty => ?_⟩
    rw [workerStep_eq_none_iff.mpr ⟨hphase, hempty⟩] at hstep
    cases hstep
  | drained consumed => exact ⟨_, _, .load consumed hphase⟩
  | flagged consumed flag =>
    cases hnewest : a.newest with
    | none => exact ⟨_, _, .abandon consumed flag hphase hnewest⟩
    | some snapshot => exact ⟨_, _, .begin consumed flag snapshot hphase hnewest⟩
  | checking pass =>
    cases htripped : a.flags.isTripped pass.flag with
    | true => exact ⟨_, _, .supersede pass hphase htripped⟩
    | false =>
      cases hleft : pass.left with
      | nil => exact ⟨_, _, .finish pass hphase htripped hleft⟩
      | cons line left =>
        cases hline : pass.snapshot.line? line with
        | none => exact ⟨_, _, .skip pass line left hphase htripped hleft hline⟩
        | some text => exact ⟨_, _, .call pass line left text hphase htripped hleft hline⟩
  | calling pass line text => exact ⟨_, _, .enter pass line text hphase⟩
  | storingPatch consumed result patch => exact ⟨_, _, .storePatch consumed result patch hphase⟩
  | storingResult consumed result => exact ⟨_, _, .publish consumed result hphase⟩
  | settling consumed => exact ⟨_, _, .settle consumed hphase⟩

/-- The worker is in a call of the tokenizer after a step that has entered it. -/
theorem Turn.runningCall?_eq {event : Option PassEvent} (h : a.Turn tokenizer event b) :
    b.runningCall? = event.bind PassEvent.call? := by
  cases h with
  | publish consumed result hstoring => cases a.patch <;> rfl
  | _ => rfl

/-- The calls that a run makes are those among its events. -/
theorem calls_runFor (tokenizer : Tokenizer) (gate : Gate) (steps : Nat) (a : Analyzer)
    (calls : List Call) : (a.runFor tokenizer gate steps calls).2 =
      calls ++ (a.eventsFor tokenizer gate steps).filterMap PassEvent.call? := by
  induction steps generalizing a calls with
  | zero => exact (List.append_nil _).symm
  | succ steps ih =>
    unfold runFor eventsFor
    cases hstep : a.workerStep tokenizer with
    | none => exact (List.append_nil _).symm
    | some b =>
      have hcall := (turn_of_step hstep).runningCall?_eq
      have hevent : (a.event? b).toList.filterMap PassEvent.call? = b.runningCall?.toList := by
        rw [hcall]
        cases a.event? b with
        | none => rfl
        | some event => cases event <;> rfl
      simp only [List.filterMap_append, hevent]
      cases b.runningCall? with
      | none => exact ih b calls
      | some call =>
        cases gate with
        | opened =>
          dsimp only
          rw [ih, List.append_assoc]
          rfl
        | closed => rfl

end Analyzer

end LineTokens
