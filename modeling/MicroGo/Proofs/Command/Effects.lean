import MicroGo.Proofs.Command.Files
import MicroGo.Proofs.Command.OutputOption
import MicroGo.Proofs.Command.TokenTable
import MicroGo.Proofs.Compile.Stages

/-!
# What a command does to the files

A command reads at most one file, and that before anything else.  It writes at most one, and that
after everything else.  In between the product is made, which may fail but touches nothing.  So a
command that fails has printed nothing and changed no file, and one that succeeds has done one of
two things with its product: it has printed it, or put it into the file that it was told.

All this holds wherever files are read and written by the laws (`FileSystem.Lawful`), and so on
every disk.

## With and without an output file

The two are related by running the same command twice on the same files, once as it is and once
without the option for the output (`withoutOutput`).  The second run prints what the first one
writes.  The file that is written may be the one that was read, since its text has been taken
before.

## In a directory alone

A directory is a disk of which only a part is looked at, before and after the command
(`run_directory`).
-/

namespace MicroGo
namespace Command

variable {σ φ : Type} {fs : FileSystem (StateM σ)} {view : FileView σ φ} {s s' : σ}
variable {source text : String}

/-! ## Products -/

/-- **The text of a product**: the assembly text of the program, a line for each of its tokens, or
the outline of its tree. -/
inductive Product.Shows (source : String) : Product → String → Prop
  | assembly {text : String} : (compile source).result = .ok text → Shows source .assembly text
  | tokens {tokens : List Token} {rows : List String} :
      (tokensOf (withLineEnd source)).result = .ok tokens → List.Forall₂ IsTokenRow tokens rows →
        Shows source .tokens (String.join rows)
  | tree {p : Program} :
      (parse (withLineEnd source)).result = .ok p →
        Shows source .tree (p.outline.render ++ "\n")

/-- What is made is the text of the product. -/
theorem Product.shows_of_make {product : Product}
    (h : (product.make source).result = .ok text) : product.Shows source text := by
  cases product with
  | assembly => exact .assembly h
  | tokens =>
    rw [make, Traced.result_bind] at h
    obtain ⟨tokens, htokens, h⟩ := except_bind_eq_ok h
    obtain rfl := Except.ok.inj h
    exact .tokens htokens (forall₂_tokenRow tokens)
  | tree =>
    rw [make, Traced.result_bind] at h
    obtain ⟨p, hp, h⟩ := except_bind_eq_ok h
    obtain rfl := Except.ok.inj h
    exact .tree hp

/-! ## The program text -/

/-- The program text is `source`: it was given as it is, or it is the text of the file. -/
def Input.IsSource (view : FileView σ φ) (s : σ) : Input → String → Prop
  | .text given, source => source = given
  | .file path, source => view.Holds s path source

/-- Loading gives the program text or a message. -/
theorem Input.load_cases (hfs : fs.Lawful view) (input : Input) (s : σ) :
    (∃ source, input.IsSource view s source ∧ (input.load fs).run s = (.ok source, s)) ∨
      ∃ message, (input.load fs).run s = (.error message, s) := by
  cases input with
  | text given => exact .inl ⟨given, rfl, rfl⟩
  | file path =>
    rw [load, run_bind, hfs.read_state]
    cases hread : ((fs.read path).run s).1 with
    | ok source => exact .inl ⟨source, hfs.read_ok path s source hread, rfl⟩
    | error e => exact .inr ⟨_, rfl⟩

/-! ## Compilations -/

/-- Handing over a product fails without an effect, prints it, or writes it. -/
theorem deliver_cases (hfs : fs.Lawful view) (threshold : Option Level) (output : Option String)
    (log : List Event) (text : String) (s : σ) :
    (∃ stderr, (deliver fs threshold output log text).run s = (⟨1, "", stderr⟩, s)) ∨
    (output = none ∧ (deliver fs threshold output log text).run s =
      (⟨0, text, shownLog threshold log⟩, s)) ∨
    ∃ path s' stderr, output = some path ∧ view.Updated s path text s' ∧
      (deliver fs threshold output log text).run s = (⟨0, "", stderr⟩, s') := by
  cases output with
  | none => exact .inr (.inl ⟨rfl, rfl⟩)
  | some path =>
    rw [deliver, run_bind]
    cases hwrite : ((fs.write path text).run s).1 with
    | error e =>
      left
      rw [hfs.write_error path text s e hwrite]
      exact ⟨_, rfl⟩
    | ok =>
      exact .inr (.inr ⟨path, _, _, rfl, hfs.write_ok path text s hwrite, rfl⟩)

namespace Invocation

/-- The product that an invocation asks for is `text`. -/
def Makes (view : FileView σ φ) (s : σ) (inv : Invocation) (text : String) : Prop :=
  ∃ source, inv.input.IsSource view s source ∧ inv.product.Shows source text

/-- A compilation hands over its product, to wherever it is to go, or fails without an effect. -/
theorem run_eq_deliver_or_failed (hfs : fs.Lawful view) (threshold : Option Level)
    (inv : Invocation) (s : σ) :
    (∃ log text, inv.Makes view s text ∧ ∀ output,
      (Invocation.run fs threshold { inv with output }).run s =
        (deliver fs threshold output log text).run s) ∨
      ∃ stderr, (inv.run fs threshold).run s = (⟨1, "", stderr⟩, s) := by
  rcases inv.input.load_cases hfs s with ⟨source, hsource, hload⟩ | ⟨message, hload⟩
  · cases hmake : (inv.product.make source).result with
    | ok text =>
      refine .inl ⟨(inv.product.make source).log, text,
        ⟨source, hsource, Product.shows_of_make hmake⟩, fun output => ?_⟩
      rw [Invocation.run, run_bind, hload]
      dsimp only
      rw [hmake]
    | error e =>
      right
      rw [Invocation.run, run_bind, hload]
      dsimp only
      rw [hmake]
      exact ⟨_, rfl⟩
  · right
    rw [Invocation.run, run_bind, hload]
    exact ⟨_, rfl⟩

/-- A compilation fails without an effect, prints its product, or writes what it would print
without an output file. -/
theorem run_cases (hfs : fs.Lawful view) (threshold : Option Level) (inv : Invocation) (s : σ) :
    (∃ stderr, (inv.run fs threshold).run s = (⟨1, "", stderr⟩, s)) ∨
    ∃ text, inv.Makes view s text ∧
      (∃ stderr, (inv.printed.run fs threshold).run s = (⟨0, text, stderr⟩, s)) ∧
      ((inv.output = none ∧ ∃ stderr, (inv.run fs threshold).run s = (⟨0, text, stderr⟩, s)) ∨
        ∃ path s' stderr, inv.output = some path ∧ view.Updated s path text s' ∧
          (inv.run fs threshold).run s = (⟨0, "", stderr⟩, s')) := by
  rcases inv.run_eq_deliver_or_failed hfs threshold s with ⟨log, text, hmakes, hrun⟩ | hfailed
  · have hinv : (inv.run fs threshold).run s = _ := hrun inv.output
    rw [hinv]
    rcases deliver_cases hfs threshold inv.output log text s with
      hfailed | ⟨houtput, hdeliver⟩ | ⟨path, s', stderr, houtput, hupdated, hdeliver⟩
    · exact .inl hfailed
    · exact .inr ⟨text, hmakes, ⟨_, hrun none⟩, .inl ⟨houtput, _, hdeliver⟩⟩
    · exact .inr ⟨text, hmakes, ⟨_, hrun none⟩,
        .inr ⟨path, s', stderr, houtput, hupdated, hdeliver⟩⟩
  · exact .inl hfailed

end Invocation

open Arguments

theorem run_of_read {args : List String} {inv : Invocation} (h : read args = some (.run inv))
    (fs : FileSystem (StateM σ)) (threshold : Option Level) :
    run fs threshold args = inv.run fs threshold := by
  unfold run
  rw [h]

/-- **A command that fails leaves no trace, and an output file only redirects.**  Let files be read
and written by the laws.  A command that fails prints nothing and changes no file.  A compilation
that succeeds makes the product that was asked for.  Without an output file it prints the product
and changes no file.  With an output file it prints nothing and changes this file alone, which then
holds the product; and this is what the same arguments without the option print. -/
theorem run_only_redirects (hfs : fs.Lawful view) {threshold : Option Level} {args : List String}
    {reply : Reply} (h : (run fs threshold args).run s = (reply, s')) :
    (reply.exit ≠ 0 → reply.stdout = "" ∧ s' = s) ∧
    (reply.exit = 0 → read args ≠ some .version → read args ≠ some .help →
      ∃ inv text, read args = some (.run inv) ∧ inv.Makes view s text ∧
        (outputGiven args = none → reply.stdout = text ∧ s' = s) ∧
        ∀ path, outputGiven args = some path →
          reply.stdout = "" ∧ view.Updated s path text s' ∧
            ∃ stderr, (run fs threshold (withoutOutput args)).run s = (⟨0, text, stderr⟩, s)) := by
  cases hread : read args with
  | none =>
    unfold run at h
    rw [hread] at h
    cases h
    exact ⟨fun _ => ⟨rfl, rfl⟩, fun hzero => absurd hzero (Nat.succ_ne_zero _)⟩
  | some request =>
    cases request with
    | version =>
      unfold run at h
      rw [hread] at h
      cases h
      exact ⟨fun hne => absurd rfl hne, fun _ hversion => absurd rfl hversion⟩
    | help =>
      unfold run at h
      rw [hread] at h
      cases h
      exact ⟨fun hne => absurd rfl hne, fun _ _ hhelp => absurd rfl hhelp⟩
    | run inv =>
      obtain ⟨hprinted, houtput⟩ := read_withoutOutput hread
      rw [run_of_read hread] at h
      rw [run_of_read hprinted, ← houtput]
      rcases inv.run_cases hfs threshold s with ⟨stderr, hrun⟩ | ⟨text, hmakes, hprints,
        ⟨hnone, stderr, hrun⟩ | ⟨path, written, stderr, hsome, hupdated, hrun⟩⟩
      · cases hrun.symm.trans h
        exact ⟨fun _ => ⟨rfl, rfl⟩, fun hzero => absurd hzero (Nat.succ_ne_zero _)⟩
      · cases hrun.symm.trans h
        refine ⟨fun hne => absurd rfl hne, fun _ _ _ =>
          ⟨inv, text, rfl, hmakes, fun _ => ⟨rfl, rfl⟩, ?_⟩⟩
        intro path hpath
        cases hnone.symm.trans hpath
      · cases hrun.symm.trans h
        refine ⟨fun hne => absurd rfl hne, fun _ _ _ =>
          ⟨inv, text, rfl, hmakes, fun hnone => ?_, ?_⟩⟩
        · cases hsome.symm.trans hnone
        · intro path' hpath
          obtain rfl : path = path' := Option.some.inj (hsome.symm.trans hpath)
          exact ⟨rfl, hupdated, hprints⟩

/-- A disk with a program text below the directory `src`, where commands run, and a file above. -/
def smallDisk : Disk :=
  ⟨["src"], [["src"]],
    [(["a", "src"], "func f() \x7b\x7d".toUTF8), (["b"], "kept".toUTF8)]⟩

/-- A file is compiled onto itself, by two paths that lead to it, and the other file stays. -/
theorem run_only_redirects_in_place :
    ∃ reply disk' text stderr,
      (run Disk.fileSystem none ["-f", "../src/./a", "-o/src/a"]).run smallDisk = (reply, disk') ∧
      reply.exit = 0 ∧ reply.stdout = "" ∧
      (run Disk.fileSystem none ["-f", "../src/./a"]).run smallDisk =
        (⟨0, text, stderr⟩, smallDisk) ∧
      Product.assembly.Shows "func f() \x7b\x7d" text ∧
      disk'.files.lookup ["a", "src"] = some text.toUTF8 ∧
      disk'.files.lookup ["b"] = some "kept".toUTF8 := by
  obtain ⟨reply, disk', h⟩ : ∃ reply disk', (run Disk.fileSystem none
      ["-f", "../src/./a", "-o/src/a"]).run smallDisk = (reply, disk') := ⟨_, _, rfl⟩
  have hexit : ((run Disk.fileSystem none
      ["-f", "../src/./a", "-o/src/a"]).run smallDisk).1.exit = 0 := by
    decide +kernel
  rw [h] at hexit
  obtain ⟨inv, text, hread, ⟨source, hsource, hshows⟩, -, hredirects⟩ :=
    (run_only_redirects Disk.lawful h).2 hexit (by decide +kernel) (by decide +kernel)
  obtain ⟨hstdout, ⟨place, hplace, -, hself, hother⟩, stderr, hprints⟩ :=
    hredirects "/src/a" (by decide +kernel)
  have hargs : read ["-f", "../src/./a", "-o/src/a"] =
      some (.run ⟨.file "../src/./a", some "/src/a", .assembly⟩) := by
    decide +kernel
  obtain rfl : ⟨.file "../src/./a", some "/src/a", .assembly⟩ = inv :=
    Request.run.inj (Option.some.inj (hargs.symm.trans hread))
  obtain ⟨file, hfile, hcontents⟩ := hsource
  -- both paths lead to the file below `src`
  have hread' : Disk.view.find smallDisk "../src/./a" = some ["a", "src"] := by
    decide +kernel
  have hwritten : Disk.view.find smallDisk "/src/a" = some ["a", "src"] := by
    decide +kernel
  obtain rfl := Option.some.inj (hread'.symm.trans hfile)
  obtain rfl := Option.some.inj (hwritten.symm.trans hplace)
  obtain rfl : "func f() \x7b\x7d" = source := String.toByteArray_inj.1 (Option.some.inj hcontents)
  refine ⟨reply, disk', text, stderr, h, hexit, hstdout, ?_, hshows, hself, ?_⟩
  · have hargs' : withoutOutput ["-f", "../src/./a", "-o/src/a"] = ["-f", "../src/./a"] := by
      decide +kernel
    rw [← hargs']
    exact hprints
  · exact hother ["b"] (by decide)

/-! ## In a directory alone -/

section Look

variable {τ : Type} {gs : FileSystem (StateM τ)} {look : σ → τ}

theorem load_look (hstate : ∀ path, ((fs.read path).run s).2 = s)
    (hread : ∀ path, (gs.read path).run (look s) = Prod.map id look ((fs.read path).run s))
    (input : Input) :
    ∃ loaded, (input.load fs).run s = (loaded, s) ∧
      (input.load gs).run (look s) = (loaded, look s) := by
  cases input with
  | text given => exact ⟨.ok given, rfl, rfl⟩
  | file path =>
    rw [Input.load, Input.load, run_bind, run_bind, hread, Prod.map_fst, Prod.map_snd, hstate]
    cases ((fs.read path).run s).1 with
    | ok source => exact ⟨_, rfl, rfl⟩
    | error e => exact ⟨_, rfl, rfl⟩

theorem deliver_look
    (hwrite : ∀ path text,
      (gs.write path text).run (look s) = Prod.map id look ((fs.write path text).run s))
    (threshold : Option Level) (output : Option String) (log : List Event) (text : String) :
    (deliver gs threshold output log text).run (look s) =
      Prod.map id look ((deliver fs threshold output log text).run s) := by
  cases output with
  | none => rfl
  | some path =>
    rw [deliver, deliver, run_bind, run_bind, hwrite, Prod.map_fst, Prod.map_snd]
    cases ((fs.write path text).run s).1 with
    | ok => rfl
    | error e => rfl

/-- What is seen of the files before a command decides what is seen of them afterwards, if this is
so for reading and for writing. -/
theorem run_look (hstate : ∀ path, ((fs.read path).run s).2 = s)
    (hread : ∀ path, (gs.read path).run (look s) = Prod.map id look ((fs.read path).run s))
    (hwrite : ∀ path text,
      (gs.write path text).run (look s) = Prod.map id look ((fs.write path text).run s))
    (threshold : Option Level) (args : List String) :
    (run gs threshold args).run (look s) =
      Prod.map id look ((run fs threshold args).run s) := by
  unfold run
  split
  next => rfl
  next => rfl
  next => rfl
  next inv _ =>
    obtain ⟨loaded, hfs, hgs⟩ := load_look hstate hread inv.input
    rw [Invocation.run, Invocation.run, run_bind, run_bind, hfs, hgs]
    cases loaded with
    | error message => rfl
    | ok source =>
      dsimp only
      split
      next => rfl
      next => exact deliver_look hwrite threshold _ _ _

end Look

namespace Directory

theorem ofDisk_disk (dir : Directory) : ofDisk dir.disk = dir := by
  obtain ⟨files⟩ := dir
  show Directory.mk ((files.map _).filterMap _) = _
  rw [List.filterMap_map]
  exact congrArg mk List.filterMap_some

theorem run_write (dir : Directory) (path text : String) :
    (fileSystem.write path text).run dir =
      Prod.map id ofDisk ((Disk.fileSystem.write path text).run dir.disk) := by
  show StateT.run (get >>= _) dir = _
  rw [run_bind]
  split
  next disk hwrite =>
    have hok : dir.disk.write path text = .ok disk := hwrite
    rw [Disk.run_write_of_ok hok]
    rfl
  next e hwrite =>
    have herror : dir.disk.write path text = .error e := hwrite
    rw [Disk.run_write_of_error herror, Prod.map_apply, ofDisk_disk]
    rfl

end Directory

/-- **A command in a directory** does what it does on the disk that holds nothing else. -/
theorem run_directory (threshold : Option Level) (args : List String) (dir : Directory) :
    (run Directory.fileSystem threshold args).run dir =
      Prod.map id Directory.ofDisk ((run Disk.fileSystem threshold args).run dir.disk) := by
  have hlook : (run Directory.fileSystem threshold args).run (Directory.ofDisk dir.disk) =
      Prod.map id Directory.ofDisk ((run Disk.fileSystem threshold args).run dir.disk) := by
    refine run_look (fun _ => rfl) (fun path => ?_) (fun path text => ?_) threshold args
    · rw [dir.ofDisk_disk]
      exact congrArg (Prod.mk _) dir.ofDisk_disk.symm
    · rw [dir.ofDisk_disk]
      exact dir.run_write path text
  rwa [dir.ofDisk_disk] at hlook

end Command
end MicroGo
