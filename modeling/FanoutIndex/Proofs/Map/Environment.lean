import FanoutIndex.Proofs.Map.Refinement
import FanoutIndex.Proofs.Text.Numerals

namespace FanoutIndex

namespace Config

/-- The variable is not set, or not to a text. -/
def IsSilent (environment : Option ByteArray) : Prop :=
  ∀ value : String, environment ≠ some value.toUTF8

/-- The variable is set to a text that denotes a number. -/
def Names (environment : Option ByteArray) (number : Nat) : Prop :=
  ∃ value : String, environment = some value.toUTF8 ∧ Text.Denotes value.toList number

variable {environment : Option ByteArray} {value : String} {number other width capacity : Nat}
  {config : Config} {cause : ConfigError}

theorem fromUTF8?_eq_some_iff {bytes : ByteArray} :
    String.fromUTF8? bytes = some value ↔ bytes = value.toUTF8 := by
  constructor
  · intro h
    rw [String.fromUTF8?] at h
    split_ifs at h
    cases h
    rfl
  · rintro rfl
    rw [String.fromUTF8?, dif_pos (by rw [String.toUTF8_eq_toByteArray]; exact value.isValidUTF8)]
    rfl

theorem toUTF8_inj {a b : String} (h : a.toUTF8 = b.toUTF8) : a = b :=
  Option.some.inj ((fromUTF8?_eq_some_iff.2 rfl).symm.trans (fromUTF8?_eq_some_iff.2 h))

theorem ofEnvironment_toUTF8 (value : String) :
    ofEnvironment (some value.toUTF8) = ofText value := by
  rw [ofEnvironment, fromUTF8?_eq_some_iff.2 rfl]

theorem ofEnvironment_of_isSilent (silent : IsSilent environment) :
    ofEnvironment environment = .ok {} := by
  cases environment with
  | none => rfl
  | some bytes =>
    have hnone : String.fromUTF8? bytes = none := by
      rw [Option.eq_none_iff_forall_ne_some]
      intro value h
      exact silent value (congrArg some (fromUTF8?_eq_some_iff.1 h))
    rw [ofEnvironment, hnone]

theorem isSilent_or (environment : Option ByteArray) :
    IsSilent environment ∨ ∃ value : String, environment = some value.toUTF8 := by
  by_cases h : ∃ value : String, environment = some value.toUTF8
  · exact .inr h
  · exact .inl fun value hvalue => h ⟨value, hvalue⟩

theorem names_toUTF8_iff : Names (some value.toUTF8) number ↔ Text.Denotes value.toList number := by
  constructor
  · rintro ⟨other, h, hdenotes⟩
    rwa [toUTF8_inj (Option.some.inj h)]
  · exact fun h => ⟨value, rfl, h⟩

theorem Names.not_isSilent (h : Names environment number) : ¬IsSilent environment :=
  fun silent => silent _ h.choose_spec.1

theorem Names.unique (h : Names environment number) (h' : Names environment other) :
    number = other := by
  obtain ⟨value, rfl, hdenotes⟩ := h
  exact hdenotes.unique (names_toUTF8_iff.1 h')

theorem ofText_eq_ok_iff : ofText value = .ok config ↔
    ∃ number < 2 ^ 64, Text.Denotes value.toList number ∧ config = { keyWidth := some number } := by
  rw [ofText]
  split
  · next number hread =>
    obtain ⟨hdenotes, hlt⟩ := Text.numeral?_trimBlank_eq_some_iff.1 hread
    constructor
    · rintro ⟨⟩
      exact ⟨number, hlt, hdenotes, rfl⟩
    · rintro ⟨other, _, hother, rfl⟩
      rw [hdenotes.unique hother]
  · next hread =>
    refine iff_of_false (by simp) ?_
    rintro ⟨number, hlt, hdenotes, _⟩
    exact Text.numeral?_trimBlank_eq_none_iff.1 hread ⟨number, hlt, hdenotes⟩

theorem ofText_eq_error_iff : ofText value = .error cause ↔
    cause = .invalidVariable keyWidthVariable value ∧
      ¬∃ number < 2 ^ 64, Text.Denotes value.toList number := by
  rw [← Text.numeral?_trimBlank_eq_none_iff, ofText]
  split
  · next number hread => simp [hread]
  · next hread => simp [hread, eq_comm]

/-- What is read is the number that the environment names, or nothing if it is silent. -/
theorem ofEnvironment_eq_ok_iff : ofEnvironment environment = .ok config ↔
    IsSilent environment ∧ config = {} ∨
      ∃ number < 2 ^ 64, Names environment number ∧ config = { keyWidth := some number } := by
  rcases isSilent_or environment with silent | ⟨value, rfl⟩
  · rw [ofEnvironment_of_isSilent silent, Except.ok.injEq, and_iff_right silent, eq_comm,
      or_iff_left]
    rintro ⟨number, _, hnames, _⟩
    exact hnames.not_isSilent silent
  · have hspeaks : ¬IsSilent (some value.toUTF8) := fun silent => silent value rfl
    simp only [ofEnvironment_toUTF8, ofText_eq_ok_iff, names_toUTF8_iff, hspeaks, false_and,
      false_or]

theorem ofEnvironment_eq_error_iff : ofEnvironment environment = .error cause ↔
    ∃ value : String, environment = some value.toUTF8 ∧
      cause = .invalidVariable keyWidthVariable value ∧
      ¬∃ number < 2 ^ 64, Text.Denotes value.toList number := by
  rcases isSilent_or environment with silent | ⟨value, rfl⟩
  · rw [ofEnvironment_of_isSilent silent]
    exact iff_of_false (by simp) fun ⟨value, h, _⟩ => silent value h
  · rw [ofEnvironment_toUTF8, ofText_eq_error_iff]
    constructor
    · exact fun h => ⟨value, rfl, h⟩
    · rintro ⟨other, h, hcause⟩
      rwa [toUTF8_inj (Option.some.inj h)]

theorem resolveKeyWidth_some_eq_ok_iff :
    resolveKeyWidth { keyWidth := some number } capacity = .ok width ↔
      number = width ∧ 1 ≤ width ∧ width ≤ capacity := by
  rw [resolveKeyWidth]
  split
  · next h => cases h
  · next h =>
    cases h
    exact iff_of_false (by simp) (by omega)
  · next hpos h =>
    cases h
    have hne : number ≠ 0 := hpos
    split_ifs with hlt
    · exact iff_of_false (by simp) (by omega)
    · rw [Except.ok.injEq]
      omega

theorem resolveKeyWidth_some_eq_error_iff :
    resolveKeyWidth { keyWidth := some number } capacity = .error cause ↔
      number = 0 ∧ cause = .zeroKeyWidth ∨
        capacity < number ∧ cause = .keyWidthTooLarge number capacity := by
  rw [resolveKeyWidth]
  split
  · next h => cases h
  · next h =>
    cases h
    simp [eq_comm]
  · next hpos h =>
    cases h
    have hne : number ≠ 0 := hpos
    split_ifs with hlt
    · simp [hne, hlt, eq_comm]
    · simp [hne, hlt]

end Config

namespace Tree

open Config

variable {w n : Nat} {V : Type} {environment : Option ByteArray} {config : Config}
  {cause : ConfigError} {start : Tree w n V}

theorem ofConfig_eq_error_iff : (ofConfig config : Except ConfigError (Tree w n V)) = .error cause ↔
    config.resolveKeyWidth (Key.capacity n) = .error cause := by
  rw [ofConfig]
  cases config.resolveKeyWidth (Key.capacity n) <;> simp [Except.map]

variable (read : ofEnvironment environment = .ok config)

include read

/-- The keys of an index may fill the key type, or have as many bytes as the environment names, if
there is room for them. -/
theorem ofConfig_eq_ok_of_ofEnvironment : ofConfig config = .ok start ↔
    ∃ width, start = empty width ∧ (IsSilent environment ∧ width = 8 * n ∨
      Names environment width ∧ 1 ≤ width ∧ width ≤ 8 * n) := by
  have hcapacity : Key.capacity n = 8 * n := Nat.mul_comm n 8
  rw [ofConfig_eq_ok_iff, hcapacity]
  refine exists_congr fun width => ?_
  rw [and_comm]
  refine and_congr_right fun _ => ?_
  rcases ofEnvironment_eq_ok_iff.1 read with ⟨silent, rfl⟩ | ⟨number, hlt, hnames, rfl⟩
  · have hnone : ¬Names environment width := fun hnames => hnames.not_isSilent silent
    simp [resolveKeyWidth, silent, hnone, eq_comm]
  · rw [resolveKeyWidth_some_eq_ok_iff]
    constructor
    · rintro ⟨rfl, hwidth⟩
      exact .inr ⟨hnames, hwidth⟩
    · rintro (⟨silent, _⟩ | ⟨hwidth, hfits⟩)
      · exact absurd silent hnames.not_isSilent
      · exact ⟨hnames.unique hwidth, hfits⟩

theorem ofConfig_eq_error_of_ofEnvironment :
    (ofConfig config : Except ConfigError (Tree w n V)) = .error cause ↔
      Names environment 0 ∧ cause = .zeroKeyWidth ∨
        ∃ number, Names environment number ∧ 8 * n < number ∧
          cause = .keyWidthTooLarge number (8 * n) := by
  have hcapacity : Key.capacity n = 8 * n := Nat.mul_comm n 8
  rw [ofConfig_eq_error_iff, hcapacity]
  rcases ofEnvironment_eq_ok_iff.1 read with ⟨silent, rfl⟩ | ⟨number, hlt, hnames, rfl⟩
  · have hnone : ∀ number, ¬Names environment number := fun _ hnames => hnames.not_isSilent silent
    simp [resolveKeyWidth, hnone]
  · rw [resolveKeyWidth_some_eq_error_iff]
    constructor
    · rintro (⟨rfl, rfl⟩ | ⟨hlarge, rfl⟩)
      · exact .inl ⟨hnames, rfl⟩
      · exact .inr ⟨number, hnames, hlarge, rfl⟩
    · rintro (⟨hzero, rfl⟩ | ⟨other, hother, hlarge, rfl⟩)
      · exact .inl ⟨hnames.unique hzero, rfl⟩
      · rw [hnames.unique hother]
        exact .inr ⟨hlarge, rfl⟩

end Tree

namespace Operation

variable {w n : Nat} {V α : Type}

/-- An operation returns on a key that has no more bytes than the width, and refuses a longer one
before anything happened. -/
structure ChecksLength (body : Operation w n V α) (run : Run w n V) (key : Bytes) (width : Nat) :
    Prop where
  returns : (∃ a after, exec body run = some (.ok a, after)) ↔ key.length ≤ width
  refuses : ∀ fault after, exec body run = some (.error fault, after) ↔
    width < key.length ∧ fault = .keyBeyondWidth key.length width ∧ after = run

variable {body : Operation w n V α} {run : Run w n V} {key : Bytes} {width : Nat}

theorem ChecksLength.of_cases
    (short : key.length ≤ width → ∃ a after, exec body run = some (.ok a, after))
    (long : ¬key.length ≤ width →
      exec body run = some (.error (.keyBeyondWidth key.length width), run)) :
    ChecksLength body run key width := by
  by_cases h : key.length ≤ width
  · have hshort := short h
    refine ⟨iff_of_true hshort h, ?_⟩
    obtain ⟨a, after, hexec⟩ := hshort
    intro fault other
    exact iff_of_false (by simp [hexec]) (by omega)
  · have hlong := long h
    refine ⟨iff_of_false (by simp [hlong]) h, ?_⟩
    intro fault other
    simp [hlong, Nat.lt_of_not_le h, eq_comm]

theorem checksLength_put (ready : run.Ready) (key : Bytes) (value : V) :
    ChecksLength (put key value .own) run key run.tree.keyWidth := by
  refine .of_cases (fun short => ?_) fun long => exec_put_refused (Tree.encode_of_long long) value
  obtain ⟨encoded, accepted⟩ := Tree.exists_encode ready.width short
  obtain ⟨after, calls, _, hput⟩ := exec_put run ready accepted value
  exact ⟨_, _, hput⟩

theorem checksLength_get (ready : run.Ready) (key : Bytes) :
    ChecksLength (get? key .own) run key run.tree.keyWidth := by
  refine .of_cases (fun short => ?_) fun long => exec_get_refused (Tree.encode_of_long long)
  obtain ⟨encoded, accepted⟩ := Tree.exists_encode ready.width short
  obtain ⟨after, calls, j, e, place, _, hget, _⟩ := exec_lookups run ready accepted
  exact ⟨_, _, hget⟩

/-- From the environment to the keys. Reading fails exactly on a text that denotes no number of 64
bits, and the failure carries the text with its blanks. Otherwise an index is built for keys of the
width that the environment names, or of the full width if it is silent, unless that width is zero or
too large, which is told apart. After any calls on this index, and whatever other clients do
meanwhile, putting and looking up refuse exactly the keys that are longer than its width, for that
reason and no other. -/
theorem environment_bounds_keys (hw : 0 < w) (environment : Option ByteArray) :
    (∀ cause, Config.ofEnvironment environment = .error cause ↔
      ∃ value : String, environment = some value.toUTF8 ∧
        cause = .invalidVariable keyWidthVariable value ∧
        ¬∃ number < 2 ^ 64, Text.Denotes value.toList number) ∧
    ∀ config, Config.ofEnvironment environment = .ok config →
      (∀ start : Tree w n V, Tree.ofConfig config = .ok start ↔
        ∃ width, start = .empty width ∧ (Config.IsSilent environment ∧ width = 8 * n ∨
          Config.Names environment width ∧ 1 ≤ width ∧ width ≤ 8 * n)) ∧
      (∀ cause, (Tree.ofConfig config : Except ConfigError (Tree w n V)) = .error cause ↔
        Config.Names environment 0 ∧ cause = .zeroKeyWidth ∨
          ∃ number, Config.Names environment number ∧ 8 * n < number ∧
            cause = .keyWidthTooLarge number (8 * n)) ∧
      ∀ start : Tree w n V, Tree.ofConfig config = .ok start → ∀ calls : List (MapCall V),
        ∃ replies tree,
          exec (MapCall.performEach calls) (.quiet start) = some (.ok replies, .quiet tree) ∧
          ∀ script trace, ScriptAdmissible start.keyWidth script → script.length < 2 ^ 30 →
            ∀ key value,
              ChecksLength (put key value .own) ⟨tree, script, trace⟩ key start.keyWidth ∧
              ChecksLength (get? key .own) ⟨tree, script, trace⟩ key start.keyWidth := by
  refine ⟨fun _ => Config.ofEnvironment_eq_error_iff, fun config read => ⟨?_, ?_, ?_⟩⟩
  · exact fun _ => Tree.ofConfig_eq_ok_of_ofEnvironment read
  · exact fun _ => Tree.ofConfig_eq_error_of_ofEnvironment read
  · intro start built calls
    obtain ⟨width, hle, rfl⟩ := Tree.eq_empty_of_ofConfig built
    obtain ⟨replies, tree, hcalls, _, models, hwidth⟩ :=
      exec_performEach (Tree.models_empty hle) hw calls
    refine ⟨replies, tree, hcalls, fun script trace admissible few key value => ?_⟩
    have ready : Run.Ready ⟨tree, script, trace⟩ :=
      ⟨models.settled, by rwa [hwidth], few⟩
    rw [← hwidth]
    exact ⟨checksLength_put ready key value, checksLength_get ready key⟩

/-- A width of twelve bytes, with a sign and among blanks: it is not the full width, so a key of
thirteen bytes is refused although the key type holds it. -/
theorem environment_bounds_keys_signed :
    Config.ofEnvironment (some "\t +012 \n".toUTF8) = .ok { keyWidth := some 12 } ∧
    Tree.ofConfig { keyWidth := some 12 } = .ok (.empty 12 : Tree 1 2 Nat) ∧
    ∃ replies tree,
      exec (MapCall.performEach [.put [97] 1 .own, .put (List.replicate 13 97) 2 .own])
        (.quiet (.empty 12 : Tree 1 2 Nat)) = some (.ok replies, .quiet tree) ∧
      exec (put (List.replicate 13 97) 3 .own) ⟨tree, [⟨.stable, 1, .put [98] 4⟩], none⟩ =
        some (.error (.keyBeyondWidth 13 12), ⟨tree, [⟨.stable, 1, .put [98] 4⟩], none⟩) ∧
      ∃ value after, exec (get? (List.replicate 12 97) .own)
        ⟨tree, [⟨.stable, 1, .put [98] 4⟩], none⟩ = some (.ok value, after) := by
  have read : Config.ofEnvironment (some "\t +012 \n".toUTF8) = .ok { keyWidth := some 12 } := by
    rw [Config.ofEnvironment_toUTF8]
    rfl
  obtain ⟨_, hread⟩ := environment_bounds_keys (w := 1) (n := 2) (V := Nat) (by decide)
    (some "\t +012 \n".toUTF8)
  obtain ⟨_, _, hkeys⟩ := hread _ read
  have built : Tree.ofConfig { keyWidth := some 12 } = .ok (.empty 12 : Tree 1 2 Nat) := rfl
  obtain ⟨replies, tree, hcalls, hchecks⟩ := hkeys _ built
    [.put [97] 1 .own, .put (List.replicate 13 97) 2 .own]
  have admissible : ScriptAdmissible 12 [(⟨.stable, 1, .put [98] 4⟩ : Event Nat)] := by
    intro event hevent
    obtain rfl := List.mem_singleton.1 hevent
    exact ⟨by decide, by decide⟩
  have hput := (hchecks _ none admissible (by decide) (List.replicate 13 97) 3).1
  have hget := (hchecks _ none admissible (by decide) (List.replicate 12 97) 3).2
  exact ⟨read, built, replies, tree, hcalls, (hput.refuses _ _).2 ⟨by decide, rfl, rfl⟩,
    hget.returns.2 (by decide)⟩

end Operation

end FanoutIndex
