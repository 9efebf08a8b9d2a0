import Mathlib.Data.List.Sort
import GeminiCpp.Eval.RunTask
import GeminiCpp.Wire.Integers

/-! The tasks of an evaluation (`task.cpp`): directories with a manifest, tests and perhaps a
reference solution. -/
namespace GeminiCpp.Eval

/-- A task with all that its directory says. -/
structure LoadedTask extends Task where
  title : Bytes
  tags : List Bytes
  dir : Bytes

/-- What loading uses of the file system, which answers every query. -/
structure TaskFiles where
  readFile : Bytes → Option Bytes
  isDirectory : Bytes → Bool
  fileExists : Bytes → Bool
  /-- The entries of a directory in the order of its iterator; none if there is an error. -/
  directoryEntries : Bytes → List Bytes × ErrorCode

/-- `filename()` of a path. -/
def fileName (path : Bytes) : Bytes := (path.reverse.takeWhile (· != 0x2F)).reverse

def taskError (dir what : Bytes) : Error := makeError .config (dir ++ ascii ": " ++ what)

/-- The prompt, which may be given as an array of lines. -/
def promptOf (j : Json) : Bytes :=
  match j.find (ascii "prompt") with
  | some (.str prompt) => prompt
  | some (.arr lines) => lines.flatMap fun
    | .str line => line ++ [lf]
    | _ => []
  | _ => []

def tagsOf (j : Json) : List Bytes :=
  match j.find (ascii "tags") with
  | some (.arr tags) => tags.filterMap fun
    | .str tag => some tag
    | _ => none
  | _ => []

def defaultTimeout : Millis := 10000

def timeoutOf (j : Json) : MayThrow Millis :=
  match j.find (ascii "timeout_ms") with
  | some t =>
    if t.isNumberInteger then do
      let n ← t.getInt32
      return if 0 < n then n.toInt else defaultTimeout
    else return defaultTimeout
  | none => return defaultTimeout

section Loading
variable (text : JsonText) (files : TaskFiles)

/-- The task of a manifest that is an object. -/
def loadManifest (dir : Bytes) (j : Json) : MayThrow (Result LoadedTask) := do
  let id ← j.valueString (ascii "id") (fileName dir)
  let title ← j.valueString (ascii "title") id
  let prompt := promptOf j
  if prompt = [] then return .error (taskError dir (ascii "task.json has no prompt"))
  let timeout ← timeoutOf j
  match files.readFile (joinPath dir (ascii "tests.cpp")) with
  | none => return .error (taskError dir (ascii "missing tests.cpp"))
  | some testSource =>
    let referenceSource := files.readFile (joinPath dir (ascii "reference.hpp"))
    return .ok { id, prompt, timeout, testSource, referenceSource, title, tags := tagsOf j, dir }

def loadTask (dir : Bytes) : MayThrow (Result LoadedTask) :=
  match files.readFile (joinPath dir (ascii "task.json")) with
  | none => return .error (taskError dir (ascii "cannot read task.json"))
  | some manifest =>
    match text.parse manifest with
    | some (.obj fields) => loadManifest files dir (.obj fields)
    | _ => return .error (taskError dir (ascii "task.json is not a JSON object"))

/-- An entry of the task directory that is loaded. -/
def isTask (entry : Bytes) : Bool :=
  files.isDirectory entry && files.fileExists (joinPath entry (ascii "task.json"))

/-- The tasks of some entries, up to the first error. -/
def loadEntries : List Bytes → MayThrow (Result (List LoadedTask))
  | [] => return .ok []
  | entry :: entries =>
    if isTask files entry then do
      match ← loadTask text files entry with
      | .error e => return .error e
      | .ok task => return (← loadEntries entries).map (task :: ·)
    else loadEntries entries

/-- Loads every task under `root`, sorted by id. The order of tasks with one id is open. -/
def loadTasks (root : Bytes) : MayThrow (Result (List LoadedTask)) :=
  if files.isDirectory root then do
    let (entries, ec) := files.directoryEntries root
    match ← loadEntries text files entries with
    | .error e => return .error e
    | .ok tasks =>
      if ec.isSet then
        return .error (makeError .io (ascii "cannot list " ++ root ++ ascii ": " ++ ec.message))
      return .ok (tasks.insertionSort fun a b => ¬ b.id < a.id)
  else return .error (makeError .config (ascii "task directory not found: " ++ root))

end Loading

/-! The fields of a manifest. -/

/-- The id and the title are strings where they are given. -/
structure ManifestTyped (j : Json) : Prop where
  id : ∀ v, j.find (ascii "id") = some v → v.isString = true
  title : ∀ v, j.find (ascii "title") = some v → v.isString = true

/-- The timeout that a manifest asks for: a positive integer that a duration can hold. -/
def manifestTimeout (j : Json) : Millis :=
  match Wire.wireInteger j (ascii "timeout_ms") with
  | some v => if 0 < v ∧ v < ((2 ^ 63 : ℕ) : ℤ) then v else defaultTimeout
  | none => defaultTimeout

/-- A timeout that is not changed by its conversion to `int`: one that `int` can hold, or, where
the default applies, a value that is not positive after the conversion or is the default. -/
def TimeoutFits (j : Json) : Prop :=
  ∀ v, Wire.wireInteger j (ascii "timeout_ms") = some v →
    if 0 < v ∧ v < ((2 ^ 63 : ℕ) : ℤ) then v < ((2 ^ 31 : ℕ) : ℤ)
    else v.bmod (2 ^ 32) ≤ 0 ∨ v.bmod (2 ^ 32) = defaultTimeout

theorem exists_valueString_iff {j : Json} {key fallback : Bytes} :
    (∃ s, j.valueString key fallback = .ok s) ↔ ∀ v, j.find key = some v → v.isString = true := by
  unfold Json.valueString
  cases j.find key with
  | none => simp
  | some v => cases v <;> simp [Json.getString, Json.isString]

theorem toInt_getInt32 {t : Json} {v : ℤ} (h : Wire.integer? t = some v) :
    ∃ n, t.getInt32 = .ok n ∧ n.toInt = v.bmod (2 ^ 32) := by
  cases t with
  | int w =>
    obtain rfl := Option.some.inj h
    exact ⟨w.toInt32, rfl, Int64.toInt_toInt32 w⟩
  | uint w =>
    obtain rfl := Option.some.inj h
    refine ⟨w.toInt64.toInt32, rfl, ?_⟩
    rw [Int64.toInt_toInt32, Wire.toInt_toInt64]
    exact Int.bmod_bmod_of_dvd (by decide)
  | _ => cases h

/-- The timeout of a task, by the integer that its manifest holds. -/
theorem timeoutOf_eq (j : Json) :
    timeoutOf j = .ok (match Wire.wireInteger j (ascii "timeout_ms") with
      | some v => if 0 < v.bmod (2 ^ 32) then v.bmod (2 ^ 32) else defaultTimeout
      | none => defaultTimeout) := by
  unfold timeoutOf Wire.wireInteger
  cases j.find (ascii "timeout_ms") with
  | none => rfl
  | some t =>
    rw [Option.bind_some]
    cases hv : Wire.integer? t with
    | none => cases t <;> first | rfl | cases hv
    | some v =>
      obtain ⟨n, hn, hvalue⟩ := toInt_getInt32 hv
      have hinteger : t.isNumberInteger = true := by cases t <;> first | rfl | cases hv
      have hpos : 0 < n ↔ 0 < v.bmod (2 ^ 32) := by
        rw [← hvalue]
        exact Int32.lt_iff_toInt_lt
      simp only [hinteger, if_true, hn, MayThrow.ok_bind, hpos, hvalue]
      rfl

theorem timeoutFits_iff (j : Json) :
    timeoutOf j = .ok (manifestTimeout j) ↔ TimeoutFits j := by
  rw [timeoutOf_eq, Except.ok.injEq]
  unfold manifestTimeout TimeoutFits
  cases Wire.wireInteger j (ascii "timeout_ms") with
  | none => simp
  | some v =>
    have hself : v.bmod (2 ^ 32) = v ↔ -2147483648 ≤ v ∧ v < 2147483648 :=
      Wire.bmod_eq_self_iff (by omega) v
    have hdefault : defaultTimeout = (10000 : ℤ) := rfl
    simp only [Option.some.injEq, forall_eq', hdefault]
    split_ifs with hnarrow hwide hwide
    all_goals
      change @Eq ℤ _ _ ↔ _
      omega

/-- An integer that `int` cannot hold wraps around. -/
example : timeoutOf (.obj [(ascii "timeout_ms", .uint 4294967301)]) = .ok 5 := by rfl

/-! What loading does with a manifest. -/

/-- The manifest has a prompt and the directory has tests. -/
def Complete (files : TaskFiles) (dir : Bytes) (j : Json) : Prop :=
  promptOf j ≠ [] ∧ files.readFile (joinPath dir (ascii "tests.cpp")) ≠ none

inductive Handled (files : TaskFiles) (dir : Bytes) (j : Json) : MayThrow (Result LoadedTask) → Prop
  | throws (x : Exn) : ¬ ManifestTyped j → Handled files dir j (.error x)
  | rejected (what : Bytes) : ManifestTyped j → ¬ Complete files dir j →
      Handled files dir j (.ok (.error (taskError dir what)))
  | loaded (task : LoadedTask) : ManifestTyped j → Complete files dir j →
      timeoutOf j = .ok task.timeout → Handled files dir j (.ok (.ok task))

/-- The manifest of a task directory, if it is an object. -/
def manifestOf (text : JsonText) (files : TaskFiles) (dir : Bytes) : Option Json :=
  match files.readFile (joinPath dir (ascii "task.json")) with
  | none => none
  | some manifest => (text.parse manifest).filter Json.isObject

variable (text : JsonText) (files : TaskFiles)

theorem loadManifest_handled (dir : Bytes) (j : Json) :
    Handled files dir j (loadManifest files dir j) := by
  unfold loadManifest
  cases hid : j.valueString (ascii "id") (fileName dir) with
  | error x =>
    apply Handled.throws
    intro htyped
    obtain ⟨s, hs⟩ := exists_valueString_iff.mpr htyped.id
    rw [hid] at hs
    cases hs
  | ok id =>
    rw [MayThrow.ok_bind]
    cases htitle : j.valueString (ascii "title") id with
    | error x =>
      apply Handled.throws
      intro htyped
      obtain ⟨s, hs⟩ := exists_valueString_iff.mpr htyped.title
      rw [htitle] at hs
      cases hs
    | ok title =>
      rw [MayThrow.ok_bind]
      have htyped : ManifestTyped j :=
        ⟨exists_valueString_iff.mp ⟨id, hid⟩, exists_valueString_iff.mp ⟨title, htitle⟩⟩
      by_cases hprompt : promptOf j = []
      · rw [if_pos hprompt]
        exact .rejected _ htyped fun hcomplete => hcomplete.1 hprompt
      · rw [if_neg hprompt]
        obtain ⟨timeout, htimeout⟩ : ∃ timeout, timeoutOf j = .ok timeout := ⟨_, timeoutOf_eq j⟩
        rw [htimeout, MayThrow.ok_bind]
        cases htests : files.readFile (joinPath dir (ascii "tests.cpp")) with
        | none => exact .rejected _ htyped fun hcomplete => hcomplete.2 htests
        | some tests =>
          have hcomplete : Complete files dir j := ⟨hprompt, by simp [htests]⟩
          exact .loaded _ htyped hcomplete htimeout

theorem loadTask_of_none {dir : Bytes} (h : manifestOf text files dir = none) :
    ∃ what, loadTask text files dir = .ok (.error (taskError dir what)) := by
  unfold manifestOf at h
  unfold loadTask
  cases hread : files.readFile (joinPath dir (ascii "task.json")) with
  | none => exact ⟨_, rfl⟩
  | some manifest =>
    simp only [hread] at h
    dsimp only
    cases hparse : text.parse manifest with
    | none => exact ⟨_, rfl⟩
    | some j =>
      rw [hparse] at h
      cases j <;> first | exact ⟨_, rfl⟩ | cases h

theorem loadTask_of_some {dir : Bytes} {j : Json} (h : manifestOf text files dir = some j) :
    loadTask text files dir = loadManifest files dir j := by
  unfold manifestOf at h
  unfold loadTask
  cases hread : files.readFile (joinPath dir (ascii "task.json")) with
  | none => simp only [hread] at h; cases h
  | some manifest =>
    simp only [hread] at h
    dsimp only
    cases hparse : text.parse manifest with
    | none => rw [hparse] at h; cases h
    | some k =>
      rw [hparse] at h
      cases k <;> cases h
      rfl

/-- The directory has a task: a typed manifest that is complete. -/
def Loads (dir : Bytes) : Prop :=
  ∃ j, manifestOf text files dir = some j ∧ ManifestTyped j ∧ Complete files dir j

theorem loadTask_cases (dir : Bytes) :
    (∃ j, manifestOf text files dir = some j ∧ ¬ ManifestTyped j ∧
      ∃ x, loadTask text files dir = .error x) ∨
    ((∀ j, manifestOf text files dir = some j → ManifestTyped j) ∧ ¬ Loads text files dir ∧
      ∃ what, loadTask text files dir = .ok (.error (taskError dir what))) ∨
    (∃ j task, manifestOf text files dir = some j ∧ ManifestTyped j ∧ Complete files dir j ∧
      loadTask text files dir = .ok (.ok task) ∧ timeoutOf j = .ok task.timeout) := by
  cases hmanifest : manifestOf text files dir with
  | none =>
    right; left
    refine ⟨fun j hj => (by cases hj), fun hloads => ?_, loadTask_of_none text files hmanifest⟩
    obtain ⟨j, hj, -⟩ := hloads
    rw [hmanifest] at hj
    cases hj
  | some j =>
    rw [loadTask_of_some text files hmanifest]
    have hhandled := loadManifest_handled files dir j
    generalize loadManifest files dir j = result at hhandled
    cases hhandled with
    | throws x htyped => exact .inl ⟨j, rfl, htyped, x, rfl⟩
    | rejected what htyped hcomplete =>
      right; left
      refine ⟨fun k hk => Option.some.inj hk ▸ htyped, fun hloads => ?_, what, rfl⟩
      obtain ⟨k, hk, -, hk'⟩ := hloads
      rw [hmanifest] at hk
      exact hcomplete (Option.some.inj hk ▸ hk')
    | loaded task htyped hcomplete htimeout =>
      exact .inr (.inr ⟨j, task, rfl, htyped, hcomplete, rfl, htimeout⟩)

/-- Loading a task returns, an error is about the configuration, and the timeout is the one
that the manifest asks for. -/
def Validates (dir : Bytes) : Prop :=
  ∃ r, loadTask text files dir = .ok r ∧ match r with
    | .error e => e.code = .config
    | .ok task => ∃ j, manifestOf text files dir = some j ∧ task.timeout = manifestTimeout j

/-- The manifest is typed, and its timeout fits where a task is made of it. -/
def Sound (dir : Bytes) : Prop :=
  ∀ j, manifestOf text files dir = some j →
    ManifestTyped j ∧ (Complete files dir j → TimeoutFits j)

theorem validates_iff_sound (dir : Bytes) : Validates text files dir ↔ Sound text files dir := by
  unfold Validates Sound
  rcases loadTask_cases text files dir with ⟨j, hj, htyped, x, hx⟩ |
    ⟨htyped, hloads, what, hwhat⟩ | ⟨j, task, hj, htyped, hcomplete, htask, htimeout⟩
  · rw [hx]
    constructor
    · rintro ⟨r, hr, -⟩
      cases hr
    · exact fun h => absurd (h j hj).1 htyped
  · rw [hwhat]
    constructor
    · intro _ j hj
      exact ⟨htyped j hj, fun hcomplete => absurd ⟨j, hj, htyped j hj, hcomplete⟩ hloads⟩
    · exact fun _ => ⟨_, rfl, rfl⟩
  · have hfits : task.timeout = manifestTimeout j ↔ TimeoutFits j := by
      rw [← timeoutFits_iff, htimeout, Except.ok.injEq]
    rw [htask, hj]
    constructor
    · rintro ⟨r, hr, h⟩ k hk
      cases hr
      cases hk
      obtain ⟨k, hk, hkept⟩ := h
      cases hk
      exact ⟨htyped, fun _ => hfits.mp hkept⟩
    · intro h
      exact ⟨_, rfl, j, rfl, hfits.mpr ((h j rfl).2 hcomplete)⟩

/-- The manifest of every task that is reached is typed: loading stops at a directory that has
no task. -/
def EntriesTyped : List Bytes → Prop
  | [] => True
  | entry :: entries =>
    if isTask files entry then
      (∀ j, manifestOf text files entry = some j → ManifestTyped j) ∧
        (Loads text files entry → EntriesTyped entries)
    else EntriesTyped entries

/-- How the entries end: with an exception; with an error; or with tasks, one for each. -/
inductive EntriesEnd (entries : List Bytes) : MayThrow (Result (List LoadedTask)) → Prop
  | throws (x : Exn) : ¬ EntriesTyped text files entries → EntriesEnd entries (.error x)
  | rejected (e : Error) : EntriesTyped text files entries → EntriesEnd entries (.ok (.error e))
  | loaded (tasks : List LoadedTask) : EntriesTyped text files entries →
      (∀ entry ∈ entries, isTask files entry = true → Loads text files entry) →
      EntriesEnd entries (.ok (.ok tasks))

variable {text files} in
/-- An entry in front that is skipped, or makes a task. -/
theorem EntriesEnd.cons {entry : Bytes} {entries : List Bytes}
    {result : MayThrow (Result (List LoadedTask))} (f : List LoadedTask → List LoadedTask)
    (htyped : EntriesTyped text files (entry :: entries) ↔ EntriesTyped text files entries)
    (hloads : isTask files entry = true → Loads text files entry)
    (h : EntriesEnd text files entries result) :
    EntriesEnd text files (entry :: entries) (result >>= fun tasks => .ok (tasks.map f)) := by
  cases h with
  | throws x h => exact .throws x fun h' => h (htyped.mp h')
  | rejected e h => exact .rejected e (htyped.mpr h)
  | loaded tasks h hall =>
    refine .loaded _ (htyped.mpr h) fun other hmem hother => ?_
    rcases List.mem_cons.mp hmem with rfl | hmem
    · exact hloads hother
    · exact hall other hmem hother

theorem loadEntries_end (entries : List Bytes) :
    EntriesEnd text files entries (loadEntries text files entries) := by
  induction entries with
  | nil => exact .loaded [] trivial fun entry hmem => by cases hmem
  | cons entry entries ih =>
    rw [loadEntries]
    by_cases htask : isTask files entry = true
    · have htyped_iff : EntriesTyped text files (entry :: entries) ↔
          (∀ j, manifestOf text files entry = some j → ManifestTyped j) ∧
            (Loads text files entry → EntriesTyped text files entries) := by
        rw [EntriesTyped, if_pos htask]
      rw [if_pos htask]
      rcases loadTask_cases text files entry with ⟨j, hj, hj', x, hx⟩ |
        ⟨htyped, hloads, what, hwhat⟩ | ⟨j, task, hj, htyped, hcomplete, hload, -⟩
      · rw [hx]
        exact .throws x fun h => hj' ((htyped_iff.mp h).1 j hj)
      · rw [hwhat]
        exact .rejected _ (htyped_iff.mpr ⟨htyped, fun h => absurd h hloads⟩)
      · have hloads : Loads text files entry := ⟨j, hj, htyped, hcomplete⟩
        rw [hload]
        apply ih.cons (task :: ·) _ fun _ => hloads
        rw [htyped_iff]
        refine ⟨fun h => h.2 hloads, fun h => ⟨fun k hk => ?_, fun _ => h⟩⟩
        rw [hj] at hk
        exact Option.some.inj hk ▸ htyped
    · have hskip : EntriesEnd text files (entry :: entries)
          (loadEntries text files entries >>= fun tasks => .ok (tasks.map id)) :=
        ih.cons id (by rw [EntriesTyped, if_neg htask]) fun h => absurd h htask
      rw [if_neg htask]
      generalize loadEntries text files entries = result at hskip ⊢
      rcases result with x | (e | tasks) <;> exact hskip

/-- Loading the tasks returns, and a directory that has no task makes it an error. -/
def ValidatesAll (root : Bytes) : Prop :=
  ∃ r, loadTasks text files root = .ok r ∧
    ((∃ entry ∈ (files.directoryEntries root).1, isTask files entry = true ∧
      ¬ Loads text files entry) → ∃ e, r = .error e)

theorem validatesAll_iff (root : Bytes) : ValidatesAll text files root ↔
    (files.isDirectory root = true → EntriesTyped text files (files.directoryEntries root).1) := by
  unfold ValidatesAll loadTasks
  by_cases hroot : files.isDirectory root = true
  · rw [if_pos hroot]
    have hend := loadEntries_end text files (files.directoryEntries root).1
    dsimp only
    generalize loadEntries text files (files.directoryEntries root).1 = result at hend
    cases hend with
    | throws x htyped =>
      refine ⟨?_, fun h => absurd (h hroot) htyped⟩
      rintro ⟨r, hr, -⟩
      cases hr
    | rejected e htyped => exact ⟨fun _ _ => htyped, fun _ => ⟨_, rfl, fun _ => ⟨e, rfl⟩⟩⟩
    | loaded tasks htyped hall =>
      refine ⟨fun _ _ => htyped, fun _ => ?_⟩
      have hnone : ¬ ∃ entry ∈ (files.directoryEntries root).1, isTask files entry = true ∧
          ¬ Loads text files entry := by
        rintro ⟨entry, hmem, htask, hloads⟩
        exact hloads (hall entry hmem htask)
      rw [MayThrow.ok_bind]
      dsimp only
      split_ifs with hec
      · exact ⟨_, rfl, fun h => absurd h hnone⟩
      · exact ⟨_, rfl, fun h => absurd h hnone⟩
  · rw [if_neg hroot]
    exact ⟨fun _ h => absurd h hroot, fun _ => ⟨_, rfl, fun _ => ⟨_, rfl⟩⟩⟩

/-- Every manifest is validated if and only if it is sound, and a directory of tasks if and only
if the manifests that are reached are typed. -/
theorem loading_validates_iff :
    (∀ dir, Validates text files dir ↔ Sound text files dir) ∧
      ∀ root, ValidatesAll text files root ↔
        (files.isDirectory root = true →
          EntriesTyped text files (files.directoryEntries root).1) :=
  ⟨validates_iff_sound text files, validatesAll_iff text files⟩

/-- A directory `t` with tests and a manifest. -/
def TaskFiles.example (manifest : Bytes) : TaskFiles :=
  { readFile := fun path =>
      if path = ascii "t/task.json" then some manifest
      else if path = ascii "t/tests.cpp" then some [] else none
    isDirectory := fun _ => true
    fileExists := fun path => path = ascii "t/task.json"
    directoryEntries := fun _ => ([ascii "t"], ⟨false, []⟩) }

theorem loading_throws_number_id : ¬ ∀ text files,
    (∀ dir, Validates text files dir) ∧ ∀ root, ValidatesAll text files root := by
  intro h
  let manifest := ascii "\x7b\"id\": 7, \"prompt\": \"p\"\x7d"
  let j := Json.obj [(ascii "id", .uint 7), (ascii "prompt", .str (ascii "p"))]
  obtain ⟨r, hr, -⟩ := (h (JsonText.known [(manifest, j)] []) (.example manifest)).1 (ascii "t")
  have hthrows : loadTask (JsonText.known [(manifest, j)] []) (.example manifest) (ascii "t") =
      .error ((Json.uint 7).typeError302 "string") := by rfl
  rw [hthrows] at hr
  cases hr

end GeminiCpp.Eval
