import FanoutIndex.Proofs.Version.Ledger

namespace FanoutIndex

namespace GuardedVersions

variable {s : GuardedVersions} {l : GuardLedger} {first : Nat → Nat} {v g : Nat} {h : HeldGuard}

@[simp]
theorem size_setVersion (v : Nat) (version : Version) :
    (s.setVersion v version).versions.size = s.versions.size := by simp [setVersion]

theorem version_setVersion (v u : Nat) (version : Version) (hu : u < s.versions.size) :
    (s.setVersion v version).version u = if u = v then version else s.version u := by
  simp only [GuardedVersions.version, setVersion, Array.getD_eq_getD_getElem?,
    Array.getElem?_setIfInBounds]
  by_cases huv : u = v
  · subst huv
    simp [hu]
  · simp [huv, Ne.symm huv]

theorem version_setVersion_of_ne {u : Nat} (huv : u ≠ v) (version : Version) :
    (s.setVersion v version).version u = s.version u := by
  simp [GuardedVersions.version, setVersion, Ne.symm huv]

section Frame

variable {u : Nat} (huv : u ≠ v)

include huv

theorem version_update_of_ne (result : Except Fault Version) :
    (s.update v result).2.version u = s.version u := by
  cases result with
  | error cause => rfl
  | ok version => exact version_setVersion_of_ne huv version

theorem version_lock_of_ne : (s.lock v).2.version u = s.version u := by
  rw [lock]
  cases (s.version v).tryLock? with
  | none => rfl
  | some version => exact version_setVersion_of_ne huv version

theorem version_criticalSection_of_ne (mark abandon : Bool) :
    (s.criticalSection v mark abandon).2.version u = s.version u := by
  rw [criticalSection]
  cases (s.version v).tryLock? with
  | none => rfl
  | some locked =>
    dsimp only
    cases runSection locked mark with
    | error cause => exact version_setVersion_of_ne huv locked
    | ok version => exact version_setVersion_of_ne huv version

theorem version_drop_of_ne (g : Nat) : (s.drop g v).2.version u = s.version u := by
  rw [drop]
  cases (s.version v).unlock with
  | error cause => rfl
  | ok version => exact version_setVersion_of_ne huv version

end Frame

/-- An operation leaves the versions alone that it does not work on. -/
theorem version_step_of_ne {action : GuardAction} {u : Nat} (hne : action.subject? s ≠ some u) :
    (s.step action).2.version u = s.version u := by
  have apart {v : Nat} (h : (some v : Option Nat) ≠ some u) : u ≠ v :=
    fun e => h (congrArg some e.symm)
  cases action with
  | hasChanged | hasChangedLocked | describe | describeBlock => rfl
  | takeToken v =>
    rw [GuardedVersions.step]
    cases (s.version v).stable? <;> rfl
  | awaitToken v =>
    rw [GuardedVersions.step]
    cases (s.version v).unlock with
    | error cause => rfl
    | ok version =>
      dsimp only
      cases version.stable? <;> exact version_setVersion_of_ne (apart hne) version
  | tryLock v => exact version_lock_of_ne (apart hne)
  | unlock v => exact version_update_of_ne (apart hne) _
  | markInsert v => exact version_update_of_ne (apart hne) _
  | acquire g v =>
    have hlock := version_lock_of_ne (s := s) (apart hne)
    rw [GuardedVersions.step]
    split
    · next h => rwa [h] at hlock
    · next h => rwa [h] at hlock
  | criticalSection v mark abandon => exact version_criticalSection_of_ne (apart hne) mark abandon
  | guardHasChanged g | guardGuards g | guardDescribe g =>
    rw [GuardedVersions.step]
    cases s.guarded? g <;> rfl
  | guardMark g =>
    rw [GuardAction.subject?] at hne
    rw [GuardedVersions.step]
    cases hguard : s.guarded? g with
    | none => rfl
    | some v => exact version_update_of_ne (apart (hguard ▸ hne)) _
  | guardDrop g =>
    rw [GuardAction.subject?] at hne
    rw [GuardedVersions.step]
    cases hguard : s.guarded? g with
    | none => rfl
    | some v => exact version_drop_of_ne (apart (hguard ▸ hne)) g

theorem lookup_map_held (held : List HeldGuard) (g : Nat) :
    (held.map fun h => (h.number, h.version)).lookup g =
      (held.find? (·.number == g)).map (·.version) := by
  induction held with
  | nil => rfl
  | cons h rest ih =>
    rw [List.map_cons, List.lookup_cons, List.find?_cons, ih, BEq.comm]
    cases h.number == g <;> rfl

/-- The words tell what the ledger tells of their versions. -/
structure Tells (first : Nat → Nat) (l : GuardLedger) (s : GuardedVersions) : Prop where
  apart : l.Apart
  guards : s.guards = l.held.map fun h => (h.number, h.version)
  known : ∀ h ∈ l.held, h.version < s.versions.size
  words : ∀ v < s.versions.size, s.version v = .ofGuard (l.state? v) (first v + l.counted v)

theorem tells_ofWords {words : List UInt32}
    (rest : ∀ word ∈ words, (Version.mk word).isBusy = false) :
    (ofWords words).Tells (fun v => ((ofWords words).version v).changes) .empty where
  apart := ⟨List.nodup_nil, List.nodup_nil⟩
  guards := rfl
  known := nofun
  words := by
    intro v hv
    have hlt : v < words.length := by simpa [ofWords] using hv
    have hword : (ofWords words).version v = ⟨words[v]⟩ := by
      simp [GuardedVersions.version, ofWords, hlt]
    apply Version.eq_ofGuard
    rw [hword]
    exact rest _ (List.getElem_mem hlt)

theorem Tells.guarded? (tells : s.Tells first l) (g : Nat) :
    s.guarded? g = (l.guard? g).map (·.version) := by
  rw [GuardedVersions.guarded?, tells.guards, lookup_map_held]
  rfl

theorem Tells.word_of_mem (tells : s.Tells first l) (hmem : h ∈ l.held) :
    s.version h.version = .ofGuard (some h.isMarked) (first h.version + l.counted h.version) := by
  rw [tells.words _ (tells.known h hmem), tells.apart.state?_of_mem hmem]

theorem Tells.acquire (tells : s.Tells first l) (hv : v < s.versions.size)
    (free : l.state? v = none) (fresh : ∀ h ∈ l.held, h.number ≠ g) :
    Tells first (l.acquire g v)
      { s.setVersion v (.ofGuard (some false) (first v + l.counted v)) with
        guards := s.guards ++ [(g, v)] } where
  apart := tells.apart.acquire free fresh
  guards := by
    rw [tells.guards]
    simp [GuardLedger.acquire]
  known := by
    intro h hmem
    rcases List.mem_append.1 hmem with hold | hnew
    · simpa using tells.known h hold
    · obtain rfl := List.mem_singleton.1 hnew
      simpa using hv
  words := by
    intro u hu
    have hu : u < s.versions.size := by simpa using hu
    have hword := version_setVersion v u (.ofGuard (some false) (first v + l.counted v)) hu
    refine hword.trans ?_
    rw [tells.apart.state?_acquire free fresh]
    split_ifs with huv
    · rw [huv]
      rfl
    · exact tells.words u hu

theorem Tells.mark (tells : s.Tells first l) (hmem : h ∈ l.held) :
    Tells first (l.mark h.number) (s.setVersion h.version
      (.ofGuard (some true) (first h.version + l.counted h.version))) where
  apart := tells.apart.mark
  guards := by
    rw [GuardLedger.map_held_mark (fun h => (h.number, h.version)) fun _ => rfl]
    exact tells.guards
  known := by
    intro x hx
    obtain ⟨y, hy, rfl⟩ := List.mem_map.1 hx
    have hknown := tells.known y hy
    rw [size_setVersion]
    split_ifs <;> exact hknown
  words := by
    intro u hu
    have hu : u < s.versions.size := by simpa using hu
    rw [version_setVersion _ _ _ hu, tells.apart.state?_mark hmem]
    split_ifs with huv
    · rw [huv]
      rfl
    · exact tells.words u hu

theorem Tells.count (tells : s.Tells first l) (free : l.state? v = none) (isMarked : Bool) :
    Tells first (l.count v isMarked)
      (s.setVersion v (.ofGuard none (first v + l.counted v + isMarked.toNat))) where
  apart := ⟨tells.apart.numbers, tells.apart.versions⟩
  guards := tells.guards
  known := by
    rw [size_setVersion]
    exact tells.known
  words := by
    intro u hu
    have hu : u < s.versions.size := by simpa using hu
    have hword := tells.words u hu
    rw [version_setVersion _ _ _ hu, GuardLedger.counted_count]
    split_ifs with huv
    · subst huv
      have hstate : (l.count u isMarked).state? u = none := free
      rw [hstate, Nat.add_assoc]
    · exact hword

theorem Tells.drop (tells : s.Tells first l) (hmem : h ∈ l.held) :
    Tells first (l.drop h) ((s.forget h.number).setVersion h.version
      (.ofGuard none (first h.version + l.counted h.version + h.isMarked.toNat))) where
  apart := tells.apart.drop h
  guards := by
    change (s.forget h.number).guards = _
    rw [forget, tells.guards, List.filter_map]
    rfl
  known := by
    intro x hx
    rw [size_setVersion]
    exact tells.known x (List.mem_of_mem_filter hx)
  words := by
    intro u hu
    have hu : u < (s.forget h.number).versions.size := by simpa using hu
    have hword := tells.words u hu
    rw [version_setVersion _ _ _ hu, tells.apart.state?_drop hmem, GuardLedger.drop,
      GuardLedger.counted_count]
    split_ifs with huv
    · rw [huv, Nat.add_assoc]
    · exact hword

/-- What an action through guards leads to. The words go on telling the ledger, and nothing fails
but a section that abandons itself. -/
structure Accounted (first : Nat → Nat) (size : Nat) (action : GuardAction) (ledger : GuardLedger)
    (outcome : GuardAnswer × GuardedVersions) : Prop where
  tells : outcome.2.Tells first ledger
  size : outcome.2.versions.size = size
  faults : ∀ cause, outcome.1 = .fault cause →
    ∃ v mark, action = .criticalSection v mark true ∧ cause = .sectionAbandoned

theorem Tells.step_acquire (tells : s.Tells first l) (hv : v < s.versions.size)
    (fresh : ∀ h ∈ l.held, h.number ≠ g) :
    Accounted first s.versions.size (.acquire g v) (l.step (.acquire g v))
      (s.step (.acquire g v)) := by
  have hword := tells.words v hv
  rw [GuardedVersions.step, GuardedVersions.lock, GuardLedger.step]
  cases hstate : l.state? v with
  | none =>
    rw [hword, hstate, Version.tryLock?_ofGuard_none]
    exact ⟨tells.acquire hv hstate fresh, size_setVersion _ _, by rintro _ ⟨⟩⟩
  | some isMarked =>
    rw [hword, hstate, Version.tryLock?_ofGuard_some]
    exact ⟨tells, rfl, by rintro _ ⟨⟩⟩

theorem Tells.step_guardMark (tells : s.Tells first l) (g : Nat) :
    Accounted first s.versions.size (.guardMark g) (l.step (.guardMark g))
      (s.step (.guardMark g)) := by
  rw [GuardedVersions.step, tells.guarded?, GuardLedger.step]
  cases hguard : l.guard? g with
  | none =>
    have hnone : ∀ h ∈ l.held, h.number ≠ g := by
      simpa [GuardLedger.guard?, List.find?_eq_none] using hguard
    rw [GuardLedger.mark_of_not_held hnone]
    exact ⟨tells, rfl, by rintro _ ⟨⟩⟩
  | some h =>
    obtain ⟨hmem, rfl⟩ := tells.apart.guard?_eq_some_iff.1 hguard
    rw [Option.map_some]
    dsimp only
    rw [tells.word_of_mem hmem, Version.markInsert_ofGuard]
    exact ⟨tells.mark hmem, size_setVersion _ _, by rintro _ ⟨⟩⟩

theorem Tells.step_guardDrop (tells : s.Tells first l) (g : Nat) :
    Accounted first s.versions.size (.guardDrop g) (l.step (.guardDrop g))
      (s.step (.guardDrop g)) := by
  rw [GuardedVersions.step, tells.guarded?, GuardLedger.step]
  cases hguard : l.guard? g with
  | none => exact ⟨tells, rfl, by rintro _ ⟨⟩⟩
  | some h =>
    obtain ⟨hmem, rfl⟩ := tells.apart.guard?_eq_some_iff.1 hguard
    rw [Option.map_some]
    dsimp only
    rw [GuardedVersions.drop, tells.word_of_mem hmem, Version.unlock_ofGuard]
    exact ⟨tells.drop hmem, size_setVersion _ _, by rintro _ ⟨⟩⟩

theorem runSection_ofGuard (count : Nat) (mark : Bool) :
    runSection (.ofGuard (some false) count) mark = .ok (.ofGuard none (count + mark.toNat)) := by
  cases mark with
  | false => exact Version.unlock_ofGuard false _
  | true =>
    rw [runSection, if_pos rfl, Version.markInsert_ofGuard]
    exact Version.unlock_ofGuard true _

theorem Tells.step_criticalSection (tells : s.Tells first l) (hv : v < s.versions.size)
    (mark abandon : Bool) :
    Accounted first s.versions.size (.criticalSection v mark abandon)
      (l.step (.criticalSection v mark abandon)) (s.step (.criticalSection v mark abandon)) := by
  have hword := tells.words v hv
  rw [GuardedVersions.step, GuardedVersions.criticalSection, GuardLedger.step]
  cases hstate : l.state? v with
  | some isMarked =>
    rw [hword, hstate, Version.tryLock?_ofGuard_some]
    exact ⟨tells, rfl, by rintro _ ⟨⟩⟩
  | none =>
    rw [hword, hstate, Version.tryLock?_ofGuard_none]
    dsimp only
    rw [runSection_ofGuard]
    refine ⟨tells.count hstate mark, size_setVersion _ _, ?_⟩
    intro cause hcause
    cases abandon with
    | false => cases hcause
    | true =>
      cases hcause
      exact ⟨v, mark, rfl, rfl⟩

theorem Tells.step (tells : s.Tells first l) {action : GuardAction}
    (guarded : action.IsGuarded s.versions.size)
    (fresh : ∀ g, action.acquired? = some g → ∀ h ∈ l.held, h.number ≠ g) :
    Accounted first s.versions.size action (l.step action) (s.step action) := by
  cases action with
  | awaitToken v | tryLock v | unlock v | markInsert v => exact guarded.elim
  | hasChanged | hasChangedLocked | describe | describeBlock => exact ⟨tells, rfl, by rintro _ ⟨⟩⟩
  | takeToken v =>
    rw [GuardedVersions.step]
    cases (s.version v).stable? with
    | none => exact ⟨tells, rfl, by rintro _ ⟨⟩⟩
    | some token => exact ⟨⟨tells.apart, tells.guards, tells.known, tells.words⟩, rfl, by rintro _ ⟨⟩⟩
  | guardHasChanged g | guardGuards g | guardDescribe g =>
    rw [GuardedVersions.step]
    cases s.guarded? g <;> exact ⟨tells, rfl, by rintro _ ⟨⟩⟩
  | acquire g v => exact tells.step_acquire guarded (fresh g rfl)
  | guardMark g => exact tells.step_guardMark g
  | guardDrop g => exact tells.step_guardDrop g
  | criticalSection v mark abandon => exact tells.step_criticalSection guarded mark abandon

theorem Tells.fault_of_step (tells : s.Tells first l) {action : GuardAction}
    (guarded : action.IsGuarded s.versions.size) {cause : Fault}
    (hfault : (s.step action).1 = .fault cause) :
    ∃ v mark, action = .criticalSection v mark true ∧ cause = .sectionAbandoned := by
  cases action with
  | acquire g v =>
    rw [GuardedVersions.step] at hfault
    split at hfault <;> cases hfault
  | _ => exact (tells.step guarded nofun).faults cause hfault

section Readings

variable (tells : s.Tells first l)

include tells

theorem Tells.isLocked_iff (hv : v < s.versions.size) :
    (s.version v).isLocked = true ↔ ∃ h ∈ l.held, h.version = v := by
  rw [tells.words v hv, Version.isLocked_ofGuard, Option.isSome_iff_exists]
  simp only [tells.apart.state?_eq_some_iff]
  constructor
  · rintro ⟨m, h, hmem, hversion, _⟩
    exact ⟨h, hmem, hversion⟩
  · rintro ⟨h, hmem, hversion⟩
    exact ⟨_, h, hmem, hversion, rfl⟩

/-- A token tells how often its version had been counted up. -/
theorem Tells.token_of_step (hv : v < s.versions.size) {token : Token}
    (htoken : (s.step (.takeToken v)).1 = .token token) :
    token = (Version.ofGuard none (first v + l.counted v)).word := by
  rw [GuardedVersions.step, tells.words v hv] at htoken
  cases hstate : l.state? v with
  | none =>
    rw [hstate, Version.stable?_ofGuard_none] at htoken
    exact (GuardAnswer.token.inj htoken).symm
  | some isMarked =>
    rw [hstate, Version.stable?_ofGuard_some] at htoken
    cases htoken

variable {earlier : Nat}

theorem Tells.step_hasChanged_iff (hv : v < s.versions.size) (hle : earlier ≤ l.counted v) :
    (s.step (.hasChanged v (some (Version.ofGuard none (first v + earlier)).word))).1 =
        .truth false ↔ (s.version v).isLocked = false ∧ 2 ^ 30 ∣ l.counted v - earlier := by
  rw [GuardedVersions.step, GuardAnswer.truth.injEq, tokenOr, Option.getD_some, tells.words v hv,
    Version.hasChanged_ofGuard, Version.isLocked_ofGuard, Option.isSome_eq_false_iff,
    Option.isNone_iff_eq_none]
  refine and_congr_right fun _ => ?_
  omega

theorem Tells.step_guardHasChanged_iff (hmem : h ∈ l.held) (hle : earlier ≤ l.counted h.version) :
    (s.step (.guardHasChanged h.number h.version
        (some (Version.ofGuard none (first h.version + earlier)).word))).1 = .truth false ↔
      h.isMarked = false ∧ 2 ^ 30 ∣ l.counted h.version - earlier := by
  have hguard : s.guarded? h.number = some h.version := by
    rw [tells.guarded?, tells.apart.guard?_eq_some_iff.2 ⟨hmem, rfl⟩]
    rfl
  rw [GuardedVersions.step, hguard]
  dsimp only
  rw [GuardAnswer.truth.injEq, tokenOr, Option.getD_some, tells.word_of_mem hmem,
    Version.hasChangedLocked_ofGuard]
  refine and_congr_right fun _ => ?_
  omega

end Readings

/-- Actions in turn, where no guard that is held has the number of one that is still to be taken. -/
theorem Tells.run {actions later : List GuardAction} (tells : s.Tells first l)
    (guarded : ∀ action ∈ actions, action.IsGuarded s.versions.size)
    (once : ((actions ++ later).filterMap GuardAction.acquired?).Nodup)
    (fresh : ∀ g ∈ (actions ++ later).filterMap GuardAction.acquired?, ∀ h ∈ l.held, h.number ≠ g) :
    (s.run actions).2.Tells first (l.run actions) ∧
      (s.run actions).2.versions.size = s.versions.size ∧
      ∀ g ∈ later.filterMap GuardAction.acquired?, ∀ h ∈ (l.run actions).held, h.number ≠ g := by
  induction actions generalizing s l with
  | nil => exact ⟨tells, rfl, fresh⟩
  | cons action rest ih =>
    rw [List.forall_mem_cons] at guarded
    rw [List.cons_append, List.filterMap_cons] at once fresh
    have hfresh (g : Nat) (hg : action.acquired? = some g) : ∀ h ∈ l.held, h.number ≠ g := by
      rw [hg] at fresh
      exact fresh g List.mem_cons_self
    obtain ⟨htells, hsize, _⟩ := tells.step guarded.1 hfresh
    have hrest : (s.run (action :: rest)).2 = ((s.step action).2.run rest).2 := rfl
    rw [hrest, ← hsize]
    apply ih htells
    · rw [hsize]
      exact guarded.2
    · cases hg : action.acquired? with
      | none => simpa [hg] using once
      | some g =>
        rw [hg] at once
        exact once.of_cons
    · intro g hmem h hheld
      rcases GuardLedger.number_of_mem_step hheld with ⟨h', hmem', heq⟩ | hacquired
      · rw [← heq]
        refine fresh g ?_ h' hmem'
        cases action.acquired? with
        | none => exact hmem
        | some g' => exact List.mem_cons_of_mem g' hmem
      · rw [hacquired] at once
        rintro rfl
        exact (List.nodup_cons.1 once).1 hmem

/-- The ledger of the guards tells the words and what becomes of tokens. Versions that start at rest
are worked on through guards, and each number is given to one guard only. Then after any actions a
version is locked if and only if a guard that is held locks it, and no other guard does; it is
marked if and only if that guard was marked; and its counter went on by the marked guards that are
gone, in 30 bits. A token that was taken earlier is refused unless the lock is free and the marked
guards that went since are a multiple of `2 ^ 30`; to the guard that holds the lock it is refused
unless that guard was not marked and their number is such a multiple. And what any guard does next
breaks no contract, unless it is a section that abandons itself, and touches no other version. -/
theorem ledger_tells_words {words : List UInt32}
    (rest : ∀ word ∈ words, (Version.mk word).isBusy = false) {earlier later : List GuardAction}
    (guarded : ∀ action ∈ earlier ++ later, action.IsGuarded words.length)
    (once : ((earlier ++ later).filterMap GuardAction.acquired?).Nodup)
    {mid last : GuardedVersions} (hmid : ((ofWords words).run earlier).2 = mid)
    (hlast : (mid.run later).2 = last) {before ledger : GuardLedger}
    (hbefore : GuardLedger.empty.run earlier = before) (hledger : before.run later = ledger) :
    last.guards = ledger.held.map (fun h => (h.number, h.version)) ∧
      (∀ v < words.length,
        ((last.version v).isLocked = true ↔ ∃ h ∈ ledger.held, h.version = v) ∧
        (∀ h ∈ ledger.held, ∀ h' ∈ ledger.held, h.version = v → h'.version = v → h = h') ∧
        ((last.version v).isInserting = true ↔
          ∃ h ∈ ledger.held, h.version = v ∧ h.isMarked = true) ∧
        (last.version v).changes =
          (((ofWords words).version v).changes + ledger.counted v) % 2 ^ 30 ∧
        ∀ token, (mid.step (.takeToken v)).1 = .token token →
          ((last.step (.hasChanged v (some token))).1 = .truth false ↔
            (last.version v).isLocked = false ∧ 2 ^ 30 ∣ ledger.counted v - before.counted v) ∧
          ∀ h ∈ ledger.held, h.version = v →
            ((last.step (.guardHasChanged h.number v (some token))).1 = .truth false ↔
              h.isMarked = false ∧ 2 ^ 30 ∣ ledger.counted v - before.counted v)) ∧
      ∀ action, action.IsGuarded words.length →
        (∀ cause, (last.step action).1 = .fault cause →
          ∃ v mark, action = .criticalSection v mark true ∧ cause = .sectionAbandoned) ∧
        ∀ u, action.subject? last ≠ some u → (last.step action).2.version u = last.version u := by
  have hsize : (ofWords words).versions.size = words.length := by simp [ofWords]
  have hearlier : ∀ action ∈ earlier, action.IsGuarded (ofWords words).versions.size := by
    rw [hsize]
    exact fun action hmem => guarded action (List.mem_append_left _ hmem)
  -- The ledger goes along with the words, first to the tokens and then to the end.
  obtain ⟨tells, hsize', fresh⟩ := (tells_ofWords rest).run hearlier once nofun
  rw [hmid] at tells hsize'
  rw [hbefore] at tells fresh
  have hlater : ∀ action ∈ later, action.IsGuarded mid.versions.size := by
    rw [hsize', hsize]
    exact fun action hmem => guarded action (List.mem_append_right _ hmem)
  have once' : ((later ++ []).filterMap GuardAction.acquired?).Nodup := by
    rw [List.append_nil]
    rw [List.filterMap_append] at once
    exact once.of_append_right
  obtain ⟨tells', hsize'', _⟩ := tells.run hlater once' (by rwa [List.append_nil])
  rw [hlast] at tells' hsize''
  rw [hledger] at tells'
  refine ⟨tells'.guards, fun v hv => ?_, fun action haction => ⟨?_, fun u => version_step_of_ne⟩⟩
  · have hv' : v < last.versions.size := by omega
    have hword' := tells'.words v hv'
    have hle : before.counted v ≤ ledger.counted v := hledger ▸ GuardLedger.counted_le_run later v
    refine ⟨tells'.isLocked_iff hv', ?_, ?_, ?_, ?_⟩
    · rintro h hmem h' hmem' rfl hversion
      exact tells'.apart.eq_of_version hmem hmem' hversion.symm
    · rw [hword', Version.isInserting_ofGuard, beq_iff_eq, tells'.apart.state?_eq_some_iff]
    · rw [hword', Version.changes_ofGuard]
    · intro token htoken
      obtain rfl := tells.token_of_step (by omega) htoken
      refine ⟨tells'.step_hasChanged_iff hv' hle, ?_⟩
      rintro h hmem rfl
      exact tells'.step_guardHasChanged_iff hmem hle
  · intro cause hfault
    refine tells'.fault_of_step ?_ hfault
    rwa [hsize'', hsize', hsize]

/-- The counter of the second version comes round in a section that abandons itself, while a marked
guard holds the first. -/
theorem ledger_tells_words_abandoned :
    ∃ mid last before ledger,
      ((ofWords [8, 0xFFFFFFFC]).run [.acquire 0 0, .guardMark 0, .criticalSection 1 true true]).2 =
        mid ∧
      (mid.run [.takeToken 1, .guardDrop 0, .acquire 1 1]).2 = last ∧
      GuardLedger.empty.run [.acquire 0 0, .guardMark 0, .criticalSection 1 true true] = before ∧
      before.run [.takeToken 1, .guardDrop 0, .acquire 1 1] = ledger ∧
      (mid.step (.takeToken 1)).1 = .token 0 ∧
      ledger.held = [⟨1, 1, false⟩] ∧
      last.guards = ledger.held.map (fun h => (h.number, h.version)) ∧
      (∀ v < 2,
        ((last.version v).isLocked = true ↔ ∃ h ∈ ledger.held, h.version = v) ∧
        (∀ h ∈ ledger.held, ∀ h' ∈ ledger.held, h.version = v → h'.version = v → h = h') ∧
        ((last.version v).isInserting = true ↔
          ∃ h ∈ ledger.held, h.version = v ∧ h.isMarked = true) ∧
        (last.version v).changes =
          (((ofWords [8, 0xFFFFFFFC]).version v).changes + ledger.counted v) % 2 ^ 30 ∧
        ∀ token, (mid.step (.takeToken v)).1 = .token token →
          ((last.step (.hasChanged v (some token))).1 = .truth false ↔
            (last.version v).isLocked = false ∧ 2 ^ 30 ∣ ledger.counted v - before.counted v) ∧
          ∀ h ∈ ledger.held, h.version = v →
            ((last.step (.guardHasChanged h.number v (some token))).1 = .truth false ↔
              h.isMarked = false ∧ 2 ^ 30 ∣ ledger.counted v - before.counted v)) ∧
      ∀ action, action.IsGuarded 2 →
        (∀ cause, (last.step action).1 = .fault cause →
          ∃ v mark, action = .criticalSection v mark true ∧ cause = .sectionAbandoned) ∧
        ∀ u, action.subject? last ≠ some u → (last.step action).2.version u = last.version u :=
  ⟨_, _, _, _, rfl, rfl, rfl, rfl, rfl, rfl, ledger_tells_words
    (show ∀ word ∈ [8, 0xFFFFFFFC], (Version.mk word).isBusy = false by
      simp [Version.isBusy_eq_false_iff])
    (by simp [GuardAction.IsGuarded]) (by decide) rfl rfl rfl rfl⟩

end GuardedVersions

end FanoutIndex
