import Mathlib.Tactic.Common
import MicroGo.Command.Arguments

/-!
# The option for the output

The option that names an output file can be taken out of a list of arguments.  What remains asks for
the same product of the same program text, only without an output file (`read_withoutOutput`).

Which of the arguments belong to the option is not a matter of their spelling alone.  The text `-ox`
may be the option, or a program text behind a `--`; and the text behind a `-f` is a path whatever it
says.  So the arguments are gone through in the order in which they are read, and the option is
taken out where it is met, together with its value if that is an argument of its own.
-/

namespace MicroGo
namespace Command

/-- The same compilation with its product printed. -/
def Invocation.printed (invocation : Invocation) : Invocation :=
  { invocation with output := none }

namespace Arguments

/-- The output path that a list of arguments gives, and the arguments without the option for it. -/
def splitOutput : List String → Option String × List String
  | [] => (none, [])
  | "--" :: rest => (none, "--" :: rest)
  | arg :: rest =>
      match Argument.ofChars arg.toList with
      | .assigned .output path => (some path, (splitOutput rest).2)
      | .awaiting setting =>
          match rest with
          | [] => (none, [arg])
          | value :: rest =>
              if setting = .output then (some value, (splitOutput rest).2)
              else ((splitOutput rest).1, arg :: value :: (splitOutput rest).2)
      | _ => ((splitOutput rest).1, arg :: (splitOutput rest).2)

/-- The output path that is given, if there is one. -/
def outputGiven (args : List String) : Option String :=
  (splitOutput args).1

/-- The same arguments without the option for the output. -/
def withoutOutput (args : List String) : List String :=
  (splitOutput args).2

/-- All ways to write the option, and two texts that only look like it. -/
example :
    splitOutput ["-o", "p", "x"] = (some "p", ["x"]) ∧
    splitOutput ["x", "-op"] = (some "p", ["x"]) ∧
    splitOutput ["-o=p", "x"] = (some "p", ["x"]) ∧
    splitOutput ["--emit", "ast", "--output", "p", "x"] = (some "p", ["--emit", "ast", "x"]) ∧
    splitOutput ["--output=p", "--", "x"] = (some "p", ["--", "x"]) ∧
    splitOutput ["--", "-op"] = (none, ["--", "-op"]) ∧
    splitOutput ["--file", "-op"] = (none, ["--file", "-op"]) := by
  decide +kernel

variable {a b : Arguments} {inv : Invocation}

/-- What has been said so far, apart from the output path. -/
def forgetOutput (a : Arguments) : Arguments :=
  { a with output := none }

/-! ## Single arguments -/

theorem setSource_forgetOutput {source : String} (h : a.setSource source = some b) :
    a.forgetOutput.setSource source = some b.forgetOutput ∧ b.output = a.output := by
  unfold setSource at h ⊢
  cases hsource : a.source with
  | some s =>
    rw [hsource] at h
    cases h
  | none =>
    rw [hsource] at h
    obtain rfl := Option.some.inj h
    have hforget : a.forgetOutput.source = none := hsource
    rw [hforget]
    exact ⟨rfl, rfl⟩

theorem set_forgetOutput {setting : Setting} {value : String} (hne : setting ≠ .output)
    (h : a.set setting value = some b) :
    a.forgetOutput.set setting value = some b.forgetOutput ∧ b.output = a.output := by
  cases setting with
  | output => exact absurd rfl hne
  | file =>
    rw [set] at h ⊢
    split at h
    next hfile =>
      obtain rfl := Option.some.inj h
      exact ⟨if_pos hfile, rfl⟩
    next => cases h
  | product =>
    rw [set] at h ⊢
    split at h
    next product hproduct hword =>
      obtain rfl := Option.some.inj h
      have hforget : a.forgetOutput.product = none := hproduct
      rw [hforget, hword]
      exact ⟨rfl, rfl⟩
    next => cases h

/-- An output path is taken if there is none so far. -/
theorem set_output_eq_some {path : String} (h : a.set .output path = some b) :
    a.output = none ∧ b.output = some path ∧ b.forgetOutput = a.forgetOutput := by
  rw [set] at h
  split at h
  next houtput =>
    obtain rfl := Option.some.inj h
    exact ⟨houtput.1, rfl, rfl⟩
  next => cases h

theorem setSources_forgetOutput {sources : List String} (h : sources.foldlM setSource a = some b) :
    sources.foldlM setSource a.forgetOutput = some b.forgetOutput ∧ b.output = a.output := by
  induction sources generalizing a with
  | nil =>
    obtain rfl := Option.some.inj h
    exact ⟨rfl, rfl⟩
  | cons source sources ih =>
    rw [List.foldlM_cons] at h ⊢
    obtain ⟨c, hc, h⟩ := Option.bind_eq_some_iff.1 h
    obtain ⟨hforget, houtput⟩ := setSource_forgetOutput hc
    obtain ⟨hall, houtput'⟩ := ih h
    exact ⟨Option.bind_eq_some_iff.2 ⟨_, hforget, hall⟩, houtput'.trans houtput⟩

theorem finish_forgetOutput (h : a.finish = some (.run inv)) :
    a.forgetOutput.finish = some (.run inv.printed) ∧ inv.output = a.output := by
  unfold finish at h ⊢
  split at h
  next source hsource hfile =>
    cases h
    have hsource' : a.forgetOutput.source = some source := hsource
    have hfile' : a.forgetOutput.file = none := hfile
    rw [hsource', hfile']
    exact ⟨rfl, rfl⟩
  next path hsource hfile =>
    cases h
    have hsource' : a.forgetOutput.source = none := hsource
    have hfile' : a.forgetOutput.file = some path := hfile
    rw [hsource', hfile']
    exact ⟨rfl, rfl⟩
  next => cases h

/-! ## All arguments -/

section

variable {arg value : String} {rest : List String} {setting : Setting}

theorem readFrom_positional (hdash : arg ≠ "--")
    (hkind : Argument.ofChars arg.toList = .positional) :
    a.readFrom (arg :: rest) = (a.setSource arg).bind fun b => b.readFrom rest := by
  rw [readFrom, hkind]
  exact hdash

theorem readFrom_assigned (hdash : arg ≠ "--")
    (hkind : Argument.ofChars arg.toList = .assigned setting value) :
    a.readFrom (arg :: rest) = (a.set setting value).bind fun b => b.readFrom rest := by
  rw [readFrom, hkind]
  exact hdash

theorem readFrom_awaiting (hdash : arg ≠ "--")
    (hkind : Argument.ofChars arg.toList = .awaiting setting) (hvalue : isValue value) :
    a.readFrom (arg :: value :: rest) = (a.set setting value).bind fun b => b.readFrom rest := by
  rw [readFrom, hkind]
  · exact if_pos hvalue
  · exact hdash

end

/-- **The option can be taken out** of `args`, read after what `a` says.  The arguments without it
ask for the same thing, printed; and the output path is the one that `a` gives, or the one that the
option gives. -/
def Splits (a : Arguments) (args : List String) : Prop :=
  ∀ inv, a.readFrom args = some (.run inv) →
    a.forgetOutput.readFrom (splitOutput args).2 = some (.run inv.printed) ∧
      inv.output = a.output.or (splitOutput args).1

section

variable {value : String} {front rest : List String} {setting : Setting}

/-- Behind an option for something else, which is kept. -/
theorem Splits.keep (hsetting : setting ≠ .output)
    (hread : ∀ (x : Arguments) (r : List String), x.readFrom (front ++ r) =
      (x.set setting value).bind fun y => y.readFrom r)
    (hsplit : splitOutput (front ++ rest) = ((splitOutput rest).1, front ++ (splitOutput rest).2))
    (hrest : ∀ b : Arguments, Splits b rest) : Splits a (front ++ rest) := by
  intro inv h
  rw [hread] at h
  obtain ⟨b, hb, h⟩ := Option.bind_eq_some_iff.1 h
  obtain ⟨hforget, houtput⟩ := set_forgetOutput hsetting hb
  obtain ⟨hprinted, hpath⟩ := hrest b inv h
  rw [hsplit, hread, ← houtput]
  exact ⟨Option.bind_eq_some_iff.2 ⟨_, hforget, hprinted⟩, hpath⟩

/-- Behind the option for the output, which is taken out. -/
theorem Splits.takeOut
    (hread : ∀ (x : Arguments) (r : List String), x.readFrom (front ++ r) =
      (x.set .output value).bind fun y => y.readFrom r)
    (hsplit : splitOutput (front ++ rest) = (some value, (splitOutput rest).2))
    (hrest : ∀ b : Arguments, Splits b rest) : Splits a (front ++ rest) := by
  intro inv h
  rw [hread] at h
  obtain ⟨b, hb, h⟩ := Option.bind_eq_some_iff.1 h
  obtain ⟨hnone, hsome, hforget⟩ := set_output_eq_some hb
  obtain ⟨hprinted, hpath⟩ := hrest b inv h
  rw [hsome] at hpath
  rw [hsplit, ← hforget, hnone]
  exact ⟨hprinted, hpath⟩

end

/-- The option can be taken out of all arguments. -/
theorem splits (a : Arguments) (args : List String) : Splits a args := by
  induction a, args using readFrom.induct with
  | case1 a =>
    intro inv h
    obtain ⟨hfinish, houtput⟩ := finish_forgetOutput h
    refine ⟨hfinish, ?_⟩
    rw [houtput]
    exact Option.or_none.symm
  | case2 a rest =>
    intro inv h
    obtain ⟨b, hb, hfinish⟩ := Option.bind_eq_some_iff.1 h
    obtain ⟨hall, houtput⟩ := setSources_forgetOutput hb
    obtain ⟨hfinish', houtput'⟩ := finish_forgetOutput hfinish
    refine ⟨Option.bind_eq_some_iff.2 ⟨_, hall, hfinish'⟩, ?_⟩
    rw [houtput', houtput]
    exact Option.or_none.symm
  -- asking for the version or for help, and an unknown option, are no compilation
  | case3 a arg rest hdash hkind | case4 a arg rest hdash hkind | case5 a arg rest hdash hkind =>
    intro inv h
    rw [readFrom, hkind] at h
    · cases h
    · exact hdash
  | case6 a arg rest hdash hkind ih =>
    intro inv h
    have hsplit : splitOutput (arg :: rest) =
        ((splitOutput rest).1, arg :: (splitOutput rest).2) := by
      rw [splitOutput, hkind]
      exact hdash
    rw [readFrom_positional hdash hkind] at h
    obtain ⟨b, hb, h⟩ := Option.bind_eq_some_iff.1 h
    obtain ⟨hforget, houtput⟩ := setSource_forgetOutput hb
    obtain ⟨hprinted, hpath⟩ := ih b inv h
    rw [hsplit, readFrom_positional hdash hkind, ← houtput]
    exact ⟨Option.bind_eq_some_iff.2 ⟨_, hforget, hprinted⟩, hpath⟩
  | case7 a arg rest hdash setting value hkind ih =>
    have hread : ∀ (x : Arguments) (r : List String), x.readFrom ([arg] ++ r) =
        (x.set setting value).bind fun y => y.readFrom r := fun _ _ => readFrom_assigned hdash hkind
    show Splits a ([arg] ++ rest)
    cases setting with
    | output =>
      refine Splits.takeOut hread ?_ ih
      rw [List.singleton_append, splitOutput, hkind]
      exact hdash
    | file | product =>
      refine Splits.keep (by decide) hread ?_ ih
      rw [List.singleton_append, splitOutput, hkind]
      · rfl
      · exact hdash
  | case8 a arg hdash setting hkind =>
    intro inv h
    rw [readFrom, hkind] at h
    · cases h
    · exact hdash
  | case9 a arg hdash setting hkind value rest hvalue ih =>
    have hread : ∀ (x : Arguments) (r : List String), x.readFrom ([arg, value] ++ r) =
        (x.set setting value).bind fun y => y.readFrom r :=
      fun _ _ => readFrom_awaiting hdash hkind hvalue
    show Splits a ([arg, value] ++ rest)
    cases setting with
    | output =>
      refine Splits.takeOut hread ?_ ih
      rw [List.cons_append, splitOutput, hkind]
      · rfl
      · exact hdash
    | file | product =>
      refine Splits.keep (by decide) hread ?_ ih
      rw [List.cons_append, splitOutput, hkind]
      · rfl
      · exact hdash
  | case10 a arg hdash setting hkind value rest hvalue =>
    intro inv h
    rw [readFrom, hkind] at h
    · cases (if_neg hvalue).symm.trans h
    · exact hdash

/-- The arguments without the option for the output ask for the same thing, printed. -/
theorem read_withoutOutput {args : List String} (h : read args = some (.run inv)) :
    read (withoutOutput args) = some (.run inv.printed) ∧ inv.output = outputGiven args :=
  splits {} args inv h

end Arguments
end Command
end MicroGo
