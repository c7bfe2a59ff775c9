import LineTokens.Proofs.Buffer.Linearizable
import Mathlib.Data.List.Nodup

/-! What observers are told of the commits of several writers. Each commit is announced once, under
the delivery lock, with the lines that it changed and the snapshot that is current then; and each
observer gets the announcements in order. So the versions that an observer gets never decrease, and
when all writers have returned, it has been told of every commit and of the last version. -/

namespace LineTokens

variable {σ : Type}

/-- A notice of a commit: the change that its writer committed, and what the observers are told. -/
structure Announcement where
  writer : Nat
  own : Change
  told : Change
deriving DecidableEq

def BufferEvent.announcement? : BufferEvent → Option Announcement
  | .told i own news => some ⟨i, own, news⟩
  | _ => none

theorem BufferEvent.writer_of_announcement? {event : BufferEvent} {a : Announcement}
    (h : event.announcement? = some a) : a.writer = event.writer := by
  cases event <;> cases h
  rfl

/-- What an observer got, in order. -/
def received (observer : Nat) (record : List Delivery) : List Change :=
  (record.filter (·.observer = observer)).map (·.change)

/-- A change told to each of the observers from `stage` on. -/
def deliveriesFrom (count stage : Nat) (told : Change) : List Delivery :=
  (List.range' stage (count - stage)).map (⟨·, told⟩)

theorem received_append (observer : Nat) (record more : List Delivery) :
    received observer (record ++ more) = received observer record ++ received observer more := by
  simp [received]

theorem deliveriesFrom_cons {count stage : Nat} (h : stage < count) (told : Change) :
    deliveriesFrom count stage told = ⟨stage, told⟩ :: deliveriesFrom count (stage + 1) told := by
  obtain ⟨n, hn⟩ : ∃ n, count - stage = n + 1 := ⟨count - stage - 1, by omega⟩
  have hrest : count - (stage + 1) = n := by omega
  rw [deliveriesFrom, deliveriesFrom, hn, hrest]
  rfl

theorem deliveriesFrom_of_le {count stage : Nat} (h : count ≤ stage) (told : Change) :
    deliveriesFrom count stage told = [] := by
  rw [deliveriesFrom, Nat.sub_eq_zero_of_le h]
  rfl

/-- One change told to all observers reaches each of them once. -/
theorem received_deliveriesFrom {count observer : Nat} (h : observer < count) (told : Change) :
    received observer (deliveriesFrom count 0 told) = [told] := by
  have hone : (List.range' 0 count).filter (· = observer) = [observer] := by
    rw [List.filter_eq, ← List.range_eq_range',
      List.count_eq_one_of_mem List.nodup_range (List.mem_range.mpr h)]
    rfl
  simp only [received, deliveriesFrom, Nat.sub_zero, List.filter_map, List.map_map]
  have hcomp : ((fun d : Delivery => decide (d.observer = observer)) ∘ fun k => ⟨k, told⟩) =
      fun k => decide (k = observer) := rfl
  rw [hcomp, hone]
  rfl

theorem received_flatMap {count observer : Nat} (h : observer < count)
    (announcements : List Announcement) :
    received observer (announcements.flatMap fun a => deliveriesFrom count 0 a.told) =
      announcements.map (·.told) := by
  induction announcements with
  | nil => rfl
  | cons a announcements ih =>
    rw [List.flatMap_cons, received_append, received_deliveriesFrom h, ih]
    rfl

/-! ### Announcements in a history -/

namespace History

def announcements (h : History) : List Announcement := h.each BufferEvent.announcement?

def announcementsOf (h : History) (i : Nat) : List Announcement :=
  h.announcements.filter (·.writer = i)

theorem announcements_cons (event : BufferEvent) (h : History) :
    announcements (event :: h) = h.announcements ++ event.announcement?.toList :=
  each_cons _ _ _

theorem announcements_cons_silent {event : BufferEvent} (hsilent : event.announcement? = none)
    (h : History) : announcements (event :: h) = h.announcements := by
  rw [announcements_cons, hsilent]
  exact List.append_nil _

theorem announcementsOf_told (h : History) (i : Nat) (own told : Change) :
    announcementsOf (.told i own told :: h) i = h.announcementsOf i ++ [⟨i, own, told⟩] := by
  unfold announcementsOf
  rw [announcements_cons, List.filter_append]
  simp [BufferEvent.announcement?]

theorem announcementsOf_append_of_ne {events : History} {i : Nat}
    (hne : ∀ e ∈ events, e.writer ≠ i) (h : History) :
    announcementsOf (events ++ h) i = h.announcementsOf i := by
  refine filter_each_append (fun e he a ha => ?_) h
  rw [decide_eq_false_iff_not, BufferEvent.writer_of_announcement? ha]
  exact hne e he

theorem commitmentsOf_append_of_ne {events : History} {i : Nat}
    (hne : ∀ e ∈ events, e.writer ≠ i) (h : History) :
    commitmentsOf (events ++ h) i = h.commitmentsOf i := by
  refine filter_each_append (fun e he c hc => ?_) h
  rw [decide_eq_false_iff_not, BufferEvent.writer_of_commitment? hc]
  exact hne e he

namespace Lawful

variable {first : Cell} {h : History}

/-- No commit is later than the current version. -/
theorem version_le_current (hl : Lawful first h) {c : Commitment} (hc : c ∈ h.commitments) :
    c.change.snapshot.version ≤ (h.current first).snapshot.version := by
  induction h with
  | nil => cases hc
  | cons event h ih =>
    obtain ⟨hexplained, hearlier⟩ := hl
    cases hexplained with
    | committed hloaded hcurrent happlied hfresh =>
      rw [current_cons_stored rfl]
      rw [commitments_cons] at hc
      rcases List.mem_append.mp hc with hc | hc
      · have hbefore := ih hearlier hc
        rw [hcurrent] at hbefore
        have hversion := (Snapshot.apply_eq_some happlied).1
        dsimp only at hversion
        omega
      · obtain rfl := List.mem_singleton.mp hc
        exact Nat.le_refl _
    | loaded | unchanged | refused | conflict | told =>
      rw [current_cons_silent rfl]
      rw [commitments_cons_silent rfl] at hc
      exact ih hearlier hc

/-- The current snapshot is that of the last commit. -/
theorem exists_commitment_current (hl : Lawful first h) (hne : h.commitments ≠ []) :
    ∃ c ∈ h.commitments, c.change.snapshot = (h.current first).snapshot := by
  induction h with
  | nil => exact absurd rfl hne
  | cons event h ih =>
    obtain ⟨hexplained, hearlier⟩ := hl
    cases hexplained with
    | committed hloaded hcurrent happlied hfresh =>
      rw [current_cons_stored rfl, commitments_cons]
      exact ⟨_, List.mem_append_right _ (List.mem_singleton_self _), rfl⟩
    | loaded | unchanged | refused | conflict | told =>
      rw [commitments_cons_silent rfl] at hne
      rw [current_cons_silent rfl, commitments_cons_silent rfl]
      exact ih hearlier hne

theorem version_le_cons {event : BufferEvent} (hl : Lawful first (event :: h)) :
    (h.current first).snapshot.version ≤ (current first (event :: h)).snapshot.version := by
  have hbefore := version_eq hl.2
  have hafter := version_eq hl
  rw [commitments_cons, List.length_append] at hafter
  omega

/-- What an announcement tells: the lines of the commit, and a snapshot that is not older than the
commit and not later than the current one. -/
theorem announces (hl : Lawful first h) {a : Announcement} (ha : a ∈ h.announcements) :
    a.told.changedLines = a.own.changedLines ∧
      a.own.snapshot.version ≤ a.told.snapshot.version ∧
      a.told.snapshot.version ≤ (h.current first).snapshot.version := by
  induction h with
  | nil => cases ha
  | cons event h ih =>
    have hgrows := version_le_cons hl
    obtain ⟨hexplained, hearlier⟩ := hl
    rw [announcements_cons] at ha
    rcases List.mem_append.mp ha with ha | ha
    · obtain ⟨hlines, hown, htold⟩ := ih hearlier ha
      exact ⟨hlines, hown, Nat.le_trans htold hgrows⟩
    · have ha := Option.mem_toList.mp ha
      cases hexplained with
      | told hmem =>
        obtain rfl := Option.some.inj ha
        exact ⟨rfl, hearlier.version_le_current (List.mem_filter.mp hmem).1, hgrows⟩
      | committed | loaded | unchanged | refused | conflict => cases ha

/-- Later announcements tell of no earlier versions. -/
theorem announcements_ascending (hl : Lawful first h) :
    (h.announcements.map (·.told.snapshot.version)).Pairwise (· ≤ ·) := by
  induction h with
  | nil => exact .nil
  | cons event h ih =>
    obtain ⟨hexplained, hearlier⟩ := hl
    rw [announcements_cons, List.map_append, List.pairwise_append]
    refine ⟨ih hearlier, ?_, fun v hv v' hv' => ?_⟩
    · cases event.announcement? <;> simp
    · obtain ⟨a, ha, rfl⟩ := List.mem_map.mp hv
      obtain ⟨b, hb, rfl⟩ := List.mem_map.mp hv'
      obtain ⟨-, -, hle⟩ := hearlier.announces ha
      have hb := Option.mem_toList.mp hb
      cases hexplained with
      | told hmem =>
        obtain rfl := Option.some.inj hb
        exact hle
      | committed | loaded | unchanged | refused | conflict => cases hb

end Lawful

end History

/-! ### Announcements and deliveries -/

namespace WriterPhase

/-- A committed change that is still to be announced. -/
def unannounced? : WriterPhase σ → Option Change
  | committed own | locked own => some own
  | idle | loaded _ | built _ _ | telling _ _ _ | releasing _ => none

/-- What the observers have still to be told of an announced change. -/
def owed (count : Nat) : WriterPhase Nat → List Delivery
  | telling _ told stage => deliveriesFrom count stage told
  | idle | loaded _ | built _ _ | committed _ | locked _ | releasing _ => []

/-- From taking the lock to its release, writer `i` holds it, and tells only observers there are. -/
def InTurn (count : Nat) (lock : Option Nat) (i : Nat) : WriterPhase Nat → Prop
  | locked _ | releasing _ => lock = some i
  | telling _ _ stage => lock = some i ∧ stage < count
  | idle | loaded _ | built _ _ | committed _ => True

end WriterPhase

theorem WriterPhase.InTurn.mono {count i : Nat} {lock lock' : Option Nat} {phase : WriterPhase Nat}
    (h : phase.InTurn count lock i) (hlock : lock = some i → lock' = some i) :
    phase.InTurn count lock' i := by
  cases phase with
  | locked own | releasing own => exact hlock h
  | telling own told stage => exact ⟨hlock h.1, h.2⟩
  | idle | loaded | built | committed => trivial

namespace Writers

def announcements {ω σ : Type} (s : Writers ω σ) : List Announcement :=
  History.announcements s.history

def announcementsOf {ω σ : Type} (s : Writers ω σ) (i : Nat) : List Announcement :=
  History.announcementsOf s.history i

/-- What the holder of the lock has still to tell. -/
def owed (s : Writers (List Delivery) Nat) (count : Nat) : List Delivery :=
  match s.lock.bind (s.writers[·]?) with
  | some w => w.phase.owed count
  | none => []

/-- Each writer has announced its commits, but for the running call's, and the observers have been
told of the announcements, but for what is owed. -/
structure Delivers (count : Nat) (s : Writers (List Delivery) Nat) : Prop where
  inTurn : ∀ (i : Nat) (w : Writer Nat), s.writers[i]? = some w → w.phase.InTurn count s.lock i
  announced_eq : ∀ (i : Nat) (w : Writer Nat), s.writers[i]? = some w →
    (s.announcementsOf i).map (·.own) ++ w.phase.unannounced?.toList =
      (s.commitmentsOf i).map (·.change)
  observed_eq : s.observed ++ s.owed count =
    s.announcements.flatMap fun a => deliveriesFrom count 0 a.told

variable {count i : Nat} {s t : Writers (List Delivery) Nat} {w w' : Writer Nat}

theorem recorders_goesOn {change : Change} {stage next : Nat} {record : List Delivery}
    (h : ((recorders count).call change stage record).2 = some next) :
    next = stage + 1 ∧ stage + 1 < count := by
  unfold recorders at h
  dsimp only at h
  split at h
  · exact ⟨(Option.some.inj h).symm, ‹_›⟩
  · cases h

theorem recorders_concludes {change : Change} {stage : Nat} {record : List Delivery}
    (h : ((recorders count).call change stage record).2 = none) : count ≤ stage + 1 := by
  unfold recorders at h
  dsimp only at h
  split at h
  · cases h
  · exact Nat.not_lt.mp ‹_›

theorem owed_of_lock (hlock : s.lock = some i) (hw : s.writers[i]? = some w) :
    s.owed count = w.phase.owed count := by
  rw [owed, hlock, Option.bind_some, hw]

theorem owed_set_self {phase : WriterPhase Nat} (hw : s.writers[i]? = some w)
    (ht : t.writers = s.writers.set i { w with phase }) (hlock : t.lock = some i) :
    t.owed count = phase.owed count :=
  owed_of_lock hlock (getElem?_set_self hw ht)

theorem owed_of_free (hlock : s.lock = none) : s.owed count = [] := by
  rw [owed, hlock]
  rfl

theorem owed_set_same (hw : s.writers[i]? = some w) (ht : t.writers = s.writers.set i w')
    (hlock : t.lock = s.lock) (hsame : w'.phase.owed count = w.phase.owed count) :
    t.owed count = s.owed count := by
  cases hl : s.lock with
  | none => rw [owed_of_free hl, owed_of_free (hlock.trans hl)]
  | some j =>
    rw [owed, owed, hlock, hl, Option.bind_some, Option.bind_some]
    by_cases hij : j = i
    · subst hij
      rw [getElem?_set_self hw ht, hw]
      exact hsame
    · rw [getElem?_set_ne hij ht]

namespace Delivers

/-- A step of one writer, of which all events are its own. -/
theorem set (h : s.Delivers count) (hw : s.writers[i]? = some w)
    (ht : t.writers = s.writers.set i w') {events : History}
    (hhistory : t.history = events ++ s.history) (hown : ∀ e ∈ events, e.writer = i)
    (hlock : ∀ j, j ≠ i → s.lock = some j → t.lock = some j)
    (hturn : w'.phase.InTurn count t.lock i)
    (hannounced : (t.announcementsOf i).map (·.own) ++ w'.phase.unannounced?.toList =
      (t.commitmentsOf i).map (·.change))
    (hobserved : t.observed ++ t.owed count =
      t.announcements.flatMap fun a => deliveriesFrom count 0 a.told) : t.Delivers count := by
  refine ⟨fun j v hv => ?_, fun j v hv => ?_, hobserved⟩
  · by_cases hij : j = i
    · subst hij
      obtain rfl := Option.some.inj ((getElem?_set_self hw ht).symm.trans hv)
      exact hturn
    · rw [getElem?_set_ne hij ht] at hv
      exact (h.inTurn j v hv).mono (hlock j hij)
  · by_cases hij : j = i
    · subst hij
      obtain rfl := Option.some.inj ((getElem?_set_self hw ht).symm.trans hv)
      exact hannounced
    · have hne : ∀ e ∈ events, e.writer ≠ j := fun e he hj => hij (hj.symm.trans (hown e he))
      rw [getElem?_set_ne hij ht] at hv
      rw [announcementsOf, commitmentsOf, hhistory, History.announcementsOf_append_of_ne hne,
        History.commitmentsOf_append_of_ne hne]
      exact h.announced_eq j v hv

/-- A step that leaves the history as it is. -/
theorem silent (h : s.Delivers count) (hw : s.writers[i]? = some w)
    (ht : t.writers = s.writers.set i w') (hhistory : t.history = s.history)
    (hlock : ∀ j, j ≠ i → s.lock = some j → t.lock = some j)
    (hturn : w'.phase.InTurn count t.lock i)
    (hunannounced : w'.phase.unannounced? = w.phase.unannounced?)
    (hobserved : t.observed ++ t.owed count = s.observed ++ s.owed count) :
    t.Delivers count := by
  have hnone : t.history = [] ++ s.history := hhistory
  refine h.set hw ht hnone (by simp) hlock hturn ?_ ?_
  · rw [announcementsOf, commitmentsOf, hhistory, hunannounced]
    exact h.announced_eq i w hw
  · rw [hobserved, announcements, hhistory]
    exact h.observed_eq

/-- A step with an event that neither commits nor announces. -/
theorem note (h : s.Delivers count) (hw : s.writers[i]? = some w)
    (ht : t.writers = s.writers.set i w') {event : BufferEvent}
    (hhistory : t.history = event :: s.history) (hwriter : event.writer = i)
    (hcommitment : event.commitment? = none) (hannouncement : event.announcement? = none)
    (hlock : t.lock = s.lock) (hobserved : t.observed = s.observed)
    (hturn : w'.phase.InTurn count t.lock i)
    (hunannounced : w'.phase.unannounced? = w.phase.unannounced?)
    (howed : w'.phase.owed count = w.phase.owed count) : t.Delivers count := by
  have hannouncements : t.announcements = s.announcements := by
    rw [announcements, hhistory, History.announcements_cons_silent hannouncement, announcements]
  have hcommitments : t.commitments = s.commitments := by
    rw [commitments, hhistory, History.commitments_cons_silent hcommitment, commitments]
  have hone : t.history = [event] ++ s.history := hhistory
  refine h.set hw ht hone (fun e he => List.mem_singleton.mp he ▸ hwriter)
    (fun _ _ hj => hlock.trans hj) hturn ?_ ?_
  · have hof : t.announcementsOf i = s.announcementsOf i := congrArg _ hannouncements
    have hof' : t.commitmentsOf i = s.commitmentsOf i := congrArg _ hcommitments
    rw [hof, hof', hunannounced]
    exact h.announced_eq i w hw
  · rw [hobserved, owed_set_same hw ht hlock howed, hannouncements]
    exact h.observed_eq

/-- After a commit the writer has one change to announce. -/
theorem commit (h : s.Delivers count) (hw : s.writers[i]? = some w) {seen stored : Cell}
    {next : Change} {batch : List Edit} (hphase : w.phase = .built seen next)
    (ht : t.writers = s.writers.set i { w with phase := .committed next })
    (hhistory : t.history = .committed i batch seen stored next.changedLines :: s.history)
    (hstored : stored.snapshot = next.snapshot) (hlock : t.lock = s.lock)
    (hobserved : t.observed = s.observed) : t.Delivers count := by
  have hone : t.history = [_] ++ s.history := hhistory
  have hannouncements : t.announcements = s.announcements := by
    rw [announcements, hhistory, History.announcements_cons_silent rfl, announcements]
  refine h.set hw ht hone (fun e he => List.mem_singleton.mp he ▸ rfl)
    (fun _ _ hj => hlock.trans hj) trivial ?_ ?_
  · have hbefore := h.announced_eq i w hw
    rw [hphase] at hbefore
    have hbefore : (s.announcementsOf i).map (·.own) = (s.commitmentsOf i).map (·.change) :=
      (List.append_nil _).symm.trans hbefore
    have hof : t.announcementsOf i = s.announcementsOf i := congrArg _ hannouncements
    have hof' : t.commitmentsOf i = s.commitmentsOf i ++
        [⟨i, batch, ⟨stored.snapshot, next.changedLines⟩⟩] := by
      rw [commitmentsOf, hhistory]
      exact History.commitmentsOf_committed ..
    rw [hof, hbefore, hof', hstored, List.map_append]
    rfl
  · rw [hobserved, owed_set_same hw ht hlock (by rw [hphase]; rfl), hannouncements]
    exact h.observed_eq

/-- With the snapshot loaded, the change is announced, and owed to every observer. -/
theorem load (h : s.Delivers count) (hw : s.writers[i]? = some w) {own told : Change}
    (hphase : w.phase = .locked own) (hcount : 0 < count)
    (ht : t.writers = s.writers.set i { w with phase := .telling own told 0 })
    (hhistory : t.history = .told i own told :: s.history) (hlock : t.lock = s.lock)
    (hobserved : t.observed = s.observed) : t.Delivers count := by
  have hheld : s.lock = some i := by
    have hturn := h.inTurn i w hw
    rw [hphase] at hturn
    exact hturn
  have hone : t.history = [_] ++ s.history := hhistory
  have hannouncements : t.announcements = s.announcements ++ [⟨i, own, told⟩] := by
    rw [announcements, hhistory, History.announcements_cons]
    rfl
  have hcommitments : t.commitments = s.commitments := by
    rw [commitments, hhistory, History.commitments_cons_silent rfl, commitments]
  refine h.set hw ht hone (fun e he => List.mem_singleton.mp he ▸ rfl)
    (fun _ _ hj => hlock.trans hj) ⟨hlock.trans hheld, hcount⟩ ?_ ?_
  · have hbefore := h.announced_eq i w hw
    rw [hphase] at hbefore
    have hof : t.announcementsOf i = s.announcementsOf i ++ [⟨i, own, told⟩] := by
      rw [announcementsOf, hhistory]
      exact History.announcementsOf_told ..
    have hof' : t.commitmentsOf i = s.commitmentsOf i := congrArg _ hcommitments
    rw [hof, hof', ← hbefore, List.map_append]
    exact List.append_nil _
  · have hbefore := h.observed_eq
    rw [owed_of_lock hheld hw, hphase] at hbefore
    have hbefore : s.observed = _ := (List.append_nil _).symm.trans hbefore
    rw [hobserved, owed_set_self hw ht (hlock.trans hheld), hannouncements, List.flatMap_append,
      ← hbefore]
    simp [WriterPhase.owed]

/-- One observer is told, and the change is owed to the next ones. -/
theorem tell (h : s.Delivers count) (hw : s.writers[i]? = some w) {own told : Change} {stage : Nat}
    (hphase : w.phase = .telling own told stage) {phase : WriterPhase Nat}
    (ht : t.writers = s.writers.set i { w with phase }) (hhistory : t.history = s.history)
    (hlock : t.lock = s.lock) (hobserved : t.observed = s.observed ++ [⟨stage, told⟩])
    (hturn : phase.InTurn count s.lock i) (hunannounced : phase.unannounced? = none)
    (howed : phase.owed count = deliveriesFrom count (stage + 1) told) : t.Delivers count := by
  obtain ⟨hheld, hlt⟩ : s.lock = some i ∧ stage < count := by
    have hbefore := h.inTurn i w hw
    rw [hphase] at hbefore
    exact hbefore
  have hrest : s.owed count = ⟨stage, told⟩ :: deliveriesFrom count (stage + 1) told := by
    rw [owed_of_lock hheld hw, hphase]
    exact deliveriesFrom_cons hlt told
  refine h.silent hw ht hhistory (fun _ _ hj => hlock.trans hj) (hlock.symm ▸ hturn) ?_ ?_
  · rw [hphase]
    exact hunannounced
  · rw [hobserved, owed_set_self hw ht (hlock.trans hheld), howed, hrest, List.append_assoc]
    rfl

theorem step (h : s.Delivers count) (hcount : 0 < count)
    (hstep : s.step (recorders count) i = some t) : t.Delivers count := by
  obtain ⟨w, hw, hmove⟩ := move_of_step hstep
  have hturn := h.inTurn i w hw
  have hfirst : (recorders count).first = some 0 := if_neg (Nat.ne_of_gt hcount)
  cases hmove with
  | begin hphase hbatches =>
    exact h.note hw rfl rfl rfl rfl rfl rfl rfl trivial (by rw [hphase]; rfl) (by rw [hphase]; rfl)
  | refuse hphase hbatches happlied =>
    exact h.note hw rfl rfl rfl rfl rfl rfl rfl trivial (by rw [hphase]; rfl) (by rw [hphase]; rfl)
  | leave hphase hbatches happlied =>
    exact h.note hw rfl rfl rfl rfl rfl rfl rfl trivial (by rw [hphase]; rfl) (by rw [hphase]; rfl)
  | build hphase hbatches happlied =>
    exact h.silent hw rfl rfl (fun _ _ hj => hj) trivial (by rw [hphase]; rfl)
      (congrArg (s.observed ++ ·) (owed_set_same hw rfl rfl (by rw [hphase]; rfl)))
  | commit hphase hbatches hsame =>
    exact h.commit hw hphase rfl rfl rfl rfl rfl
  | retry hphase hdiffers =>
    exact h.note hw rfl rfl rfl rfl rfl rfl rfl trivial (by rw [hphase]; rfl) (by rw [hphase]; rfl)
  | unobserved hphase hnobody =>
    rw [hfirst] at hnobody
    cases hnobody
  | acquire hphase hfree =>
    rename_i own
    have howed : Writers.owed ({ s with lock := some i }.setPhase i w (.locked own)) count =
        (WriterPhase.locked own).owed count := owed_set_self hw rfl rfl
    refine h.silent hw rfl rfl (fun j _ hj => ?_) rfl (by rw [hphase]; rfl)
      (congrArg (s.observed ++ ·) (howed.trans (owed_of_free hfree).symm))
    rw [hfree] at hj
    cases hj
  | skip hphase hnobody =>
    rw [hfirst] at hnobody
    cases hnobody
  | load hphase hstage =>
    obtain rfl : 0 = _ := Option.some.inj (hfirst.symm.trans hstage)
    exact h.load hw hphase hcount rfl rfl rfl rfl
  | goOn hphase hcalled =>
    rw [hphase] at hturn
    obtain ⟨rfl, hnext⟩ := recorders_goesOn hcalled
    exact h.tell hw hphase rfl rfl rfl rfl ⟨hturn.1, hnext⟩ rfl rfl
  | conclude hphase hcalled =>
    rw [hphase] at hturn
    exact h.tell hw hphase rfl rfl rfl rfl hturn.1 rfl
      (deliveriesFrom_of_le (recorders_concludes hcalled) _).symm
  | release hphase =>
    rw [hphase] at hturn
    have howed : s.owed count = [] := by
      rw [owed_of_lock hturn hw, hphase]
      rfl
    refine h.silent hw rfl rfl (fun j hij hj => ?_) trivial (by rw [hphase]; rfl)
      (congrArg (s.observed ++ ·) ((owed_of_free rfl).trans howed.symm))
    exact absurd (Option.some.inj (hj.symm.trans hturn)) hij

end Delivers

theorem delivers_start (count : Nat) (first : Snapshot) (calls : List (List (List Edit))) :
    (start first [] calls : Writers (List Delivery) Nat).Delivers count := by
  refine ⟨fun i w hw => ?_, fun i w hw => ?_, rfl⟩
  · obtain ⟨batches, -, rfl⟩ := List.mem_map.mp (List.mem_of_getElem? hw)
    trivial
  · obtain ⟨batches, -, rfl⟩ := List.mem_map.mp (List.mem_of_getElem? hw)
    rfl

theorem Reachable.delivers {count : Nat} (hcount : 0 < count) {first : Snapshot}
    {calls : List (List (List Edit))} {s : Writers (List Delivery) Nat}
    (h : Reachable (recorders count) (Writers.start first [] calls) s) : s.Delivers count := by
  induction h with
  | start => exact delivers_start count first calls
  | step i _ hstep ih => exact ih.step hcount hstep

/-- Writers that have returned have nothing to announce, and nothing is owed. -/
theorem settled_of_isDone (hdone : s.isDone = true) (count : Nat) :
    s.owed count = [] ∧
      ∀ (i : Nat) (w : Writer Nat), s.writers[i]? = some w → w.phase.unannounced? = none := by
  have hidle : ∀ (i : Nat) (w : Writer Nat), s.writers[i]? = some w → w.phase = .idle :=
    fun _ _ hw => (idle_of_isDone hdone hw).1
  refine ⟨?_, fun i w hw => by rw [hidle i w hw]; rfl⟩
  unfold owed
  split
  · rename_i w hw
    obtain ⟨i, -, hi⟩ := Option.bind_eq_some_iff.mp hw
    rw [hidle i w hi]
    rfl
  · rfl

theorem getLast?_of_ascending {versions : List Nat} {last : Nat}
    (h : versions.Pairwise (· ≤ ·)) (hmem : last ∈ versions) (hle : ∀ v ∈ versions, v ≤ last) :
    versions.getLast? = some last := by
  obtain ⟨before, after, rfl⟩ := List.append_of_mem hmem
  rcases List.eq_nil_or_concat after with rfl | ⟨between, v, rfl⟩
  · simp
  · have hge : last ≤ v := by
      have htail := (List.pairwise_append.mp h).2.1
      exact (List.pairwise_cons.mp htail).1 v (by simp)
    have hv : v ≤ last := hle v (by simp)
    have hlast : v = last := Nat.le_antisymm hv hge
    rw [List.concat_eq_append, ← List.cons_append, ← List.append_assoc, List.getLast?_concat, hlast]

/-- However the steps of the writers are interleaved, every observer gets the announcements in
order, and each writer announces each of its commits once: the changed lines that the call returns,
with a snapshot that is no older than the commit. Calls that change nothing announce nothing. No
observer ever gets an earlier version after a later one; and when all writers have returned, nothing
is left to announce or to deliver, and the last version delivered is the buffer's. -/
theorem notices_complete {count : Nat} {first : Snapshot} {calls : List (List (List Edit))}
    {s : Writers (List Delivery) Nat}
    (h : Reachable (recorders count) (start first [] calls) s) {observer : Nat}
    (hobserver : observer < count) :
    received observer s.observed ++ received observer (s.owed count) =
      s.announcements.map (·.told) ∧
    (∀ i mine, calls[i]? = some mine → ∃ w, s.writers[i]? = some w ∧
      (s.announcementsOf i).map (·.own) ++ w.phase.unannounced?.toList =
        (s.commitmentsOf i).map (·.change) ∧
      (s.commitmentsOf i).map (·.decision) = (mine.zip w.results).filter Decision.changes) ∧
    (∀ a ∈ s.announcements, a.writer < calls.length ∧ a.told.changedLines = a.own.changedLines ∧
      a.own.snapshot.version ≤ a.told.snapshot.version) ∧
    ((received observer s.observed).map (·.snapshot.version)).Pairwise (· ≤ ·) ∧
    (s.isDone = true →
      received observer s.observed = s.announcements.map (·.told) ∧
      (∀ i < calls.length,
        (s.announcementsOf i).map (·.own) = (s.commitmentsOf i).map (·.change)) ∧
      (s.commitments ≠ [] →
        ((received observer s.observed).map (·.snapshot.version)).getLast? =
          some s.cell.snapshot.version)) := by
  have ht : s.Traced first calls := h.traced
  have hd : s.Delivers count := h.delivers (Nat.zero_lt_of_lt hobserver)
  have hreceived : received observer s.observed ++ received observer (s.owed count) =
      s.announcements.map (·.told) := by
    rw [← received_append, hd.observed_eq, received_flatMap hobserver]
  have hversions : s.announcements.map (·.told.snapshot.version) =
      (received observer s.observed).map (·.snapshot.version) ++
        (received observer (s.owed count)).map (·.snapshot.version) := by
    rw [← List.map_append, hreceived, List.map_map]
    rfl
  have hascending : (s.announcements.map (·.told.snapshot.version)).Pairwise (· ≤ ·) :=
    ht.lawful.announcements_ascending
  have hwriter : ∀ i < calls.length, ∃ w, s.writers[i]? = some w := fun i hi =>
    ⟨_, List.getElem?_eq_getElem (ht.length_eq.symm ▸ hi)⟩
  refine ⟨hreceived, fun i mine hmine => ?_, fun a ha => ?_, ?_, fun hdone => ?_⟩
  · obtain ⟨w, hw⟩ := hwriter i (List.getElem?_eq_some_iff.mp hmine).1
    refine ⟨w, hw, hd.announced_eq i w hw, ?_⟩
    rw [← (ht.follows i w mine hw hmine).decisions_eq]
    exact ht.lawful.decision_commitmentsOf i
  · obtain ⟨hlines, hown, -⟩ := ht.lawful.announces ha
    obtain ⟨event, hevent, hannouncement⟩ := History.mem_each.mp ha
    rw [BufferEvent.writer_of_announcement? hannouncement]
    exact ⟨ht.writer_lt event hevent, hlines, hown⟩
  · rw [hversions] at hascending
    exact (List.pairwise_append.mp hascending).1
  · obtain ⟨howed, hnone⟩ := settled_of_isDone hdone count
    have hall : received observer s.observed = s.announcements.map (·.told) := by
      rw [howed] at hreceived
      exact (List.append_nil _).symm.trans hreceived
    have hannounced : ∀ i < calls.length,
        (s.announcementsOf i).map (·.own) = (s.commitmentsOf i).map (·.change) := by
      intro i hi
      obtain ⟨w, hw⟩ := hwriter i hi
      have hown := hd.announced_eq i w hw
      rw [hnone i w hw] at hown
      exact (List.append_nil _).symm.trans hown
    refine ⟨hall, hannounced, fun hne => ?_⟩
    -- The announcement of the last commit tells of its version, or of a later one.
    obtain ⟨c, hc, hcurrent⟩ := ht.lawful.exists_commitment_current hne
    rw [ht.cell_eq] at hcurrent
    have hmem : c.change ∈ (s.commitmentsOf c.writer).map (·.change) :=
      List.mem_map_of_mem (List.mem_filter.mpr ⟨hc, by simp⟩)
    rw [← hannounced c.writer (ht.commitment_writer_lt hc)] at hmem
    obtain ⟨a, ha, hown⟩ := List.mem_map.mp hmem
    have ha : a ∈ s.announcements := (List.mem_filter.mp ha).1
    obtain ⟨-, hge, hle⟩ := ht.lawful.announces ha
    rw [hown, hcurrent] at hge
    rw [ht.cell_eq] at hle
    rw [hall, List.map_map]
    refine getLast?_of_ascending hascending ?_ fun v hv => ?_
    · exact List.mem_map.mpr ⟨a, ha, Nat.le_antisymm hle hge⟩
    · obtain ⟨b, hb, rfl⟩ := List.mem_map.mp hv
      obtain ⟨-, -, hle⟩ := ht.lawful.announces hb
      rw [ht.cell_eq] at hle
      exact hle

/-- Three writers race, with three observers. The second commit waits for the lock while the third
is made, so its announcement tells of version 3, and version 2 is never told. -/
theorem notices_complete_racing :
    let first : Writers (List Delivery) Nat := start .empty []
      [[[.insertLine 0 ['a']]], [[.insertLine 0 ['b']], [⟨0, 9, 0, ['x']⟩]], [[.insertLine 0 ['c']]]]
    let s := first.runRounds (recorders 3) 40
    Reachable (recorders 3) first s ∧ s.isDone = true ∧
      s.commitments.map (·.writer) = [0, 1, 2] ∧
      (received 2 s.observed).map (·.snapshot.version) = [1, 3, 3] ∧
      (received 2 s.observed).length = s.announcements.length ∧
      (s.announcementsOf 1).map (·.own) = (s.commitmentsOf 1).map (·.change) ∧
      ((received 2 s.observed).map (·.snapshot.version)).getLast? = some 3 := by
  intro first s
  have hreached : Reachable (recorders 3) first s := Reachable.start.runRounds 40
  have hdone : s.isDone = true := by decide +kernel
  have hversion : s.cell.snapshot.version = 3 := by decide +kernel
  have hcommitments : s.commitments.map (·.writer) = [0, 1, 2] := by decide +kernel
  obtain ⟨-, -, -, -, hend⟩ := notices_complete hreached (show 2 < 3 by decide)
  obtain ⟨hall, hannounced, hlast⟩ := hend hdone
  refine ⟨hreached, hdone, hcommitments, by decide +kernel, ?_, hannounced 1 (by decide), ?_⟩
  · rw [hall, List.length_map]
  · rw [← hversion]
    refine hlast fun hnil => ?_
    rw [hnil] at hcommitments
    cases hcommitments

end Writers

end LineTokens
