import Yikes.Properties.Executed
import Yikes.Properties.Rest

/-!
# Plain — polling when all file names are plain

The outputs of videos with plain names have plain names (`PlainBelow.spread`), so they never get lost
in the shell, however often they are converted again.  The polling loop with `FFMpegTranscoder` does
what it does with an ffmpeg that is executed directly, and comes to rest if and only if what its
engines can make is finite (`rest_executed`).
-/

namespace Yikes

open Ruby Posix

/-! ## Plain names -/

theorem EncodingItem.quotedLiteral_subpathAsTargetExt :
    (s : Str) → Shell.QuotedLiteral s → Shell.QuotedLiteral (subpathAsTargetExt s)
  | [], h => by simpa using h
  | c :: s, h => by
      rcases h with ⟨hquote, htick, hback, hdollar, hs⟩
      by_cases hdot : c = '.'
      · subst hdot
        cases hrun : lineRun s with
        | none =>
            rw [subpathAsTargetExt_of_none hrun]
            exact ⟨hquote, htick, fun h => absurd h (by decide), fun h => absurd h (by decide),
              quotedLiteral_subpathAsTargetExt s hs⟩
        | some r =>
            have hsame := (lineRun_spec hrun).1
            have hlt : r.2.length ≤ s.length := by
              rw [← hsame]
              simp
            have hrest : Shell.QuotedLiteral r.2 := by
              rw [← hsame] at hs
              exact hs.of_append
            have hmp4 : Shell.QuotedLiteral ('.' :: mp4) := by decide
            rw [subpathAsTargetExt_of_some hrun, ← List.cons_append]
            refine hmp4.append (quotedLiteral_subpathAsTargetExt r.2 hrest) ?_
            intro hlast
            exact absurd hlast (by decide)
      · -- what comes behind the character begins as it did
        have hhead := head?_subpathAsTargetExt s
        rw [subpathAsTargetExt_of_ne hdot]
        refine ⟨hquote, htick, ?_, ?_, quotedLiteral_subpathAsTargetExt s hs⟩
        · rw [hhead]
          exact hback
        · rw [Shell.startsExpansion_of_head? hhead]
          exact hdollar
termination_by s => s.length

theorem quotedLiteral_sep {s : Str} (h : Shell.QuotedLiteral s) : Shell.QuotedLiteral ('/' :: s) :=
  ⟨by decide, by decide, fun h => absurd h (by decide), fun h => absurd h (by decide), h⟩

theorem quotedLiteral_names {names : List Str} (h : ∀ x ∈ names, Shell.QuotedLiteral x) :
    Shell.QuotedLiteral (['/'].intercalate names) := by
  induction names with
  | nil => trivial
  | cons x names ih =>
      have hx := h x (by simp)
      cases names with
      | nil => simpa using hx
      | cons y names =>
          rw [List.intercalate_cons_of_ne_nil (by simp), List.append_assoc, List.singleton_append]
          exact hx.append (quotedLiteral_sep (ih fun z hz => h z (by simp [hz]))) fun _ => rfl

theorem quotedLiteral_join2 {a b : Str} (ha : Shell.QuotedLiteral a) (hb : Shell.QuotedLiteral b)
    (hsep : b.head? ≠ some '/') : Shell.QuotedLiteral (File.join2 a b) := by
  rw [File.join2, if_neg hsep]
  split
  · next hlast =>
      refine ha.append hb ?_
      intro hdollar
      rw [hlast] at hdollar
      exact absurd hdollar (by decide)
  · exact ha.append (quotedLiteral_sep hb) fun _ => rfl

theorem head?_names {names : List Str} (h : ∀ x ∈ names, Shown x) :
    (['/'].intercalate names).head? ≠ some '/' := by
  cases names with
  | nil => simp
  | cons x names =>
      have hx := (h x (by simp)).1
      have hfirst : x.head? ≠ some '/' := fun hhead => hx.2.1 (List.mem_of_head? hhead)
      by_cases hnil : names = []
      · simpa [hnil] using hfirst
      · rw [List.intercalate_cons_of_ne_nil hnil, List.append_assoc, List.head?_append_of_ne_nil _ hx.1]
        exact hfirst

/-! ## Plain places -/

/-- Below `root`, all files have plain names. -/
def PlainBelow (root : Loc) (files : Set Loc) : Prop :=
  ∀ rel, root ++ rel ∈ files → ∀ name ∈ rel, Shell.QuotedLiteral name

/-- As far as the outputs of the flow are below `root`, they are there under plain names. -/
def PlainTarget (root : Loc) (flow : Flow) : Prop :=
  ∀ sub, flow.target = root ++ sub → ∀ name ∈ sub, Shell.QuotedLiteral name

theorem Converts.named {rel out : List Str} (hout : Converts rel out) : ∀ x ∈ rel, Shown x := by
  rcases hout with ⟨_, _, _, hshown, _, _⟩
  exact hshown

theorem Converts.quotedLiteral {rel out : List Str} (hout : Converts rel out)
    (h : ∀ name ∈ rel, Shell.QuotedLiteral name) : ∀ name ∈ out, Shell.QuotedLiteral name := by
  rcases hout with ⟨dirs, name, rfl, _, _, rfl⟩
  intro x hx
  rcases List.mem_append.1 hx with hx | hx
  · exact h x (by simp [hx])
  · rw [List.mem_singleton.1 hx]
    exact EncodingItem.quotedLiteral_subpathAsTargetExt name (h name (by simp))

/-- The outputs of a flow do not change that. -/
theorem PlainBelow.spread {root : Loc} {flow : Flow} {files : Set Loc} (hroot : PlainBelow root files)
    (hflow : PlainBelow flow.root files) (htarget : PlainTarget root flow) :
    PlainBelow root (Spread.spread flow.Makes files) := by
  rintro rel (hold | ⟨a, ha, rel', out, rfl, hout, hplace⟩)
  · exact hroot rel hold
  · have hnames := hout.quotedLiteral (hflow rel' ha)
    intro name hname
    -- the target is below the root, or the root is below the target
    rcases List.append_eq_append_iff.1 hplace with ⟨sub, hsub, hrel⟩ | ⟨sub, hsub, hrel⟩
    · rw [hrel] at hname
      rcases List.mem_append.1 hname with hname | hname
      · exact htarget sub hsub name hname
      · exact hnames name hname
    · exact hnames name (by simp [hrel, hname])

namespace Engine

variable {σ : Type} {platform : Platform} {libDir : Str} {md5 : Str → Str}

/-- The paths of ffmpeg and of the screenshots are plain. -/
structure PlainPaths (platform : Platform) (libDir : Str) (md5 : Str → Str) : Prop where
  ffmpeg : Shell.Literal (FFMpegTranscoder.ffmpegPath libDir)
  noAssignment : Shell.isAssignment (FFMpegTranscoder.ffmpegPath libDir) = false
  preview : ∀ item : EncodingItem,
    Shell.QuotedLiteral (File.join [platform.previewPath, item.screenshotSubpath md5])

/-- All items of a library with plain names are plain. -/
theorem plain_items (hpaths : PlainPaths platform libDir md5) {t : Tree} {library target : Str}
    {flow : Flow} (hserves : Serves t library target flow) (hlibrary : Shell.QuotedLiteral library)
    (htarget : Shell.QuotedLiteral target) (hfiles : PlainBelow flow.root (filesOf t)) :
    ∀ item ∈ items t library target, PlainItem platform libDir md5 item := by
  intro item hitem
  rcases items_plain hserves.plain hserves.root hserves.isDir target with ⟨rels, _, hmem, hitems⟩
  rw [hitems] at hitem
  rcases List.mem_map.1 hitem with ⟨rel, hrel, rfl⟩
  rcases (video_iff hserves.scanned).1 ((hmem rel).1 hrel) with ⟨hfile, out, hout⟩
  have hrels := hfiles rel hfile
  have hdirs := dirName_of_converts hserves.scanned hfile hout
  have hsub : (itemOf library target rel).subpathTarget = ['/'].intercalate out :=
    subpathTarget_itemOf hout hdirs
  have houtput : Shell.QuotedLiteral (File.join2 target ((itemOf library target rel).subpathTarget)) := by
    rw [hsub]
    exact quotedLiteral_join2 htarget (quotedLiteral_names (hout.quotedLiteral hrels))
      (head?_names hout.shown)
  exact ⟨⟨⟨hpaths.ffmpeg, hpaths.noAssignment⟩,
    quotedLiteral_join2 hlibrary (quotedLiteral_names hrels) (head?_names hout.named), houtput⟩,
    hpaths.preview _⟩

/-- Executed with the arguments that are meant, ffmpeg writes the video, if it can be made, and leaves
the other files alone; a screenshot leaves them all alone. -/
structure Encodes (libDir : Str) (exec : Program σ) : Prop where
  transcode : ∀ (input output : Str) (fs : FileSystem) (s : Outside σ) (loc : Loc),
    fs.tree.creates output = some loc →
    ∃ bytes s', 256 < bytes.length ∧
      (exec (FFMpegTranscoder.transcodeArgs libDir input output) (fs, s)).2 =
        (fs.write output bytes, s')
  getScreenshot : ∀ (input output : Str) (fs : FileSystem) (s : Outside σ),
    ∃ s', (exec (FFMpegTranscoder.screenshotArgs libDir input output) (fs, s)).2 = (fs, s')

theorem writes_executed {exec : Program σ} (h : Encodes libDir exec) :
    Writes (FFMpegTranscoder.executed libDir exec) where
  transcode := by
    intro input output fs s loc hcreates
    rcases h.transcode input output fs (FFMpegTranscoder.setLibraryPath libDir s) loc hcreates with
      ⟨bytes, s', hlong, hexec⟩
    refine ⟨bytes, s', hlong, ?_⟩
    rw [FFMpegTranscoder.executed_transcode, hexec]
  beforeTranscode := fun fs s => ⟨FFMpegTranscoder.setLibraryPath libDir s, rfl⟩
  getScreenshot := by
    intro input output fs s
    rcases h.getScreenshot input output fs (FFMpegTranscoder.setLibraryPath libDir s) with
      ⟨s', hexec⟩
    refine ⟨s', ?_⟩
    rw [FFMpegTranscoder.executed_getScreenshot, hexec]

end Engine

namespace EngineManager

variable {κ : Type} {flowOf : Key → Flow}

/-! ## Polling through the shell -/

/-- The directories are plain, and so are the places of all outputs in view of a scan. -/
structure PlainKeys (flowOf : Key → Flow) (ks : List Key) : Prop where
  library : ∀ key ∈ ks, Shell.QuotedLiteral key.1
  target : ∀ key ∈ ks, Shell.QuotedLiteral key.2
  places : ∀ key ∈ ks, ∀ key' ∈ ks, PlainTarget (flowOf key).root (flowOf key')

variable {σ : Type} {platform : Platform} {libDir : Str} {exec : Program σ} {md5 : Str → Str}
  {ks : List Key} {es : List (Key × Registered κ)} {p p' : Polling κ (Outside σ)}

/-- The registry of engines that execute ffmpeg. -/
def executedOf (platform : Platform) (libDir : Str) (exec : Program σ) (md5 : Str → Str) (_ : κ) :
    Engine (Outside σ) :=
  Engine.executedEngine platform libDir exec md5

/-- The registry of engines that use the shell. -/
def shellOf (platform : Platform) (libDir : Str) (exec : Program σ) (other : System σ)
    (md5 : Str → Str) (_ : κ) : Engine (Outside σ) :=
  Engine.ffmpegEngine platform libDir (Shell.perform exec other) md5

/-- What stays as it is while engines of `es` are polled: they are at work, and see plain names
only. -/
structure Steady (engineOf : κ → Engine (Outside σ)) (flowOf : Key → Flow) (ks : List Key)
    (es : List (Key × Registered κ)) (p : Polling κ (Outside σ)) : Prop where
  keys : keys p = ks
  all : AllAtWork engineOf flowOf p
  entries : ∀ entry ∈ es, entry.1 ∈ ks ∧ AtWork engineOf flowOf p.world.fs.tree entry
  plain : ∀ key ∈ ks, PlainBelow (flowOf key).root (filesOf p.world.fs.tree)

/-- The engines of the next sweep are no others. -/
theorem Steady.again {engineOf : κ → Engine (Outside σ)} (h : Steady engineOf flowOf ks es p) :
    Steady engineOf flowOf ks p.engines.entries p :=
  ⟨h.keys, h.all,
    fun entry hentry => ⟨h.keys ▸ List.mem_map_of_mem hentry, h.all entry hentry⟩, h.plain⟩

theorem Steady.round {engineOf : κ → Engine (Outside σ)} (hkeys : PlainKeys flowOf ks)
    (h : Steady engineOf flowOf ks es p) {entry : Key × Registered κ} (hentry : entry ∈ es)
    (hrun : EngineManager.round engineOf entry p = .ok () p') :
    p'.looks = 0 ∨ Steady engineOf flowOf ks es p' := by
  by_cases hlooks : p'.looks = 0
  · exact Or.inl hlooks
  · rcases h.entries entry hentry with ⟨hkey, hwork⟩
    rcases spreads_of_round h.all hwork hrun with ⟨hspreads, hall⟩
    refine Or.inr ⟨hspreads.keys.trans h.keys, hall, ?_, ?_⟩
    · intro other hother
      rcases h.entries other hother with ⟨hmem, hat⟩
      exact ⟨hmem, hat.mono hspreads.fills⟩
    · intro key hmem
      rw [hspreads.files hlooks]
      exact (h.plain key hmem).spread (h.plain entry.1 hkey) (hkeys.places key hmem entry.1 hkey)

variable (hpaths : Engine.PlainPaths platform libDir md5) (hkeys : PlainKeys flowOf ks)
  (other : System σ)

include hpaths hkeys

theorem round_executed (h : Steady (executedOf platform libDir exec md5) flowOf ks es p)
    {entry : Key × Registered κ} (hentry : entry ∈ es) :
    round (shellOf platform libDir exec other md5) entry p =
      round (executedOf platform libDir exec md5) entry p := by
  by_cases hlooks : p.looks = 0
  · rw [round_of_quit hlooks, round_of_quit hlooks]
  · rcases h.entries entry hentry with ⟨hkey, hwork⟩
    -- the queue is empty, so the pass has the items of its own listing
    have hbatch : Engine.batch (p.worldOf entry.2.state) entry.1.1 entry.1.2 =
        Engine.items p.world.fs.tree entry.1.1 entry.1.2 := by
      have hqueue : (p.worldOf entry.2.state).state.toEncodeQueue = [] := hwork.queue
      rw [Engine.batch, hqueue]
      rfl
    have hplain : ∀ item ∈ Engine.batch (p.worldOf entry.2.state) entry.1.1 entry.1.2,
        Engine.PlainItem platform libDir md5 item := by
      rw [hbatch]
      exact Engine.plain_items hpaths hwork.serves (hkeys.library entry.1 hkey)
        (hkeys.target entry.1 hkey) (h.plain entry.1 hkey)
    have hpass : (shellOf platform libDir exec other md5 entry.2.transcoder).doEncode entry.1.1 entry.1.2
        (p.worldOf entry.2.state) =
          (executedOf platform libDir exec md5 entry.2.transcoder).doEncode entry.1.1 entry.1.2
            (p.worldOf entry.2.state) :=
      Engine.doEncode_executed hplain other
    have hworld : ({ p with looks := p.looks - 1 } : Polling κ (Outside σ)).worldOf entry.2.state =
        p.worldOf entry.2.state := rfl
    have hencode : encode (shellOf platform libDir exec other md5) entry { p with looks := p.looks - 1 } =
        encode (executedOf platform libDir exec md5) entry { p with looks := p.looks - 1 } := by
      rw [encode, encode, hworld, hpass]
    rw [round_of_not_quit hlooks, round_of_not_quit hlooks, hencode]

/-- The sweeps are the same, and the engines are where they were after it. -/
theorem sweep_executed (h : Steady (executedOf platform libDir exec md5) flowOf ks es p) :
    es.forM (round (shellOf platform libDir exec other md5)) p =
        es.forM (round (executedOf platform libDir exec md5)) p ∧
      ∀ p', es.forM (round (executedOf platform libDir exec md5)) p = .ok () p' →
        p'.looks = 0 ∨ Steady (executedOf platform libDir exec md5) flowOf ks es p' := by
  have hstep : ∀ entry ∈ es, ∀ q q' : Polling κ (Outside σ),
      q.looks = 0 ∨ Steady (executedOf platform libDir exec md5) flowOf ks es q →
      round (executedOf platform libDir exec md5) entry q = .ok () q' →
      q'.looks = 0 ∨ Steady (executedOf platform libDir exec md5) flowOf ks es q' := by
    rintro entry hentry q q' (hlooks | hsteady) hrun
    · rw [round_of_quit hlooks] at hrun
      cases hrun
      exact Or.inl hlooks
    · exact hsteady.round hkeys hentry hrun
  have hsame : ∀ entry ∈ es, ∀ q : Polling κ (Outside σ),
      q.looks = 0 ∨ Steady (executedOf platform libDir exec md5) flowOf ks es q →
      round (shellOf platform libDir exec other md5) entry q =
        round (executedOf platform libDir exec md5) entry q := by
    rintro entry hentry q (hlooks | hsteady)
    · rw [round_of_quit hlooks, round_of_quit hlooks]
    · exact round_executed hpaths hkeys other hsteady hentry
  exact ⟨Each.forM_congr hstep hsame (Or.inr h), fun _ hrun =>
    Each.forM_invariant hstep (Or.inr h) hrun⟩

theorem poll_executed (rounds : Nat) :
    ∀ {p : Polling κ (Outside σ)},
      (p.looks = 0 ∨ Steady (executedOf platform libDir exec md5) flowOf ks p.engines.entries p) →
      pollDirectoryAndEncode (shellOf platform libDir exec other md5) rounds p =
        pollDirectoryAndEncode (executedOf platform libDir exec md5) rounds p := by
  induction rounds with
  | zero =>
      intro p _
      rfl
  | succ rounds ih =>
      intro p h
      by_cases hlooks : p.looks = 0
      · rw [poll_of_quit hlooks, poll_of_quit hlooks]
      · have hsteady : Steady (executedOf platform libDir exec md5) flowOf ks p.engines.entries
            { p with looks := p.looks - 1 } := by
          have hthere := h.resolve_left hlooks
          exact ⟨hthere.keys, hthere.all, hthere.entries, hthere.plain⟩
        rcases sweep_executed hpaths hkeys other hsteady with ⟨hsame, hafter⟩
        rw [poll_succ hlooks, poll_succ hlooks, sweep_eq, sweep_eq, hsame]
        cases hsweep : p.engines.entries.forM (round (executedOf platform libDir exec md5))
            { p with looks := p.looks - 1 } with
        | error e q => rfl
        | ok u q =>
            apply ih
            split
            · exact Or.inl rfl
            · rcases hafter q hsweep with hquit | hthere
              · exact Or.inl hquit
              · exact Or.inr hthere.again

end EngineManager

namespace Sample

/-- A program that writes 300 bytes to its last argument, unless it is asked for a picture. -/
def encoder : Program Unit := fun args s =>
  if args[3]? = some "-f".toList then (.exited 0, s)
  else (.exited 0, (s.1.write (args.getLastD []) (List.replicate 300 0), s.2))

def installed : Str := "/opt/yikes".toList

def label (_ : Str) : Str := "4d96".toList

/-- A shell that does nothing with what it does not read as one simple command. -/
def idle : System Unit := fun _ s => (.exited 127, s)

/-- The relay, with a shell. -/
def shelled : EngineManager.Polling Unit (Outside Unit) :=
  shelving relay { environ := fun _ => none, rest := () }

theorem encodes_encoder : Engine.Encodes installed encoder where
  transcode := by
    intro input output fs s loc _
    refine ⟨List.replicate 300 0, s, ?_, ?_⟩
    · rw [List.length_replicate]
      omega
    · have hlast : (FFMpegTranscoder.transcodeArgs installed input output).getLastD [] = output :=
        List.getLastD_concat (l := _ :: _ :: input :: _)
      have hthird : (FFMpegTranscoder.transcodeArgs installed input output)[3]? =
          some "-y".toList := rfl
      have hkind : (FFMpegTranscoder.transcodeArgs installed input output)[3]? ≠ some "-f".toList := by
        rw [hthird]
        decide
      simp only [encoder, if_neg hkind, hlast]
  getScreenshot := by
    intro input output fs s
    have hkind : (FFMpegTranscoder.screenshotArgs installed input output)[3]? = some "-f".toList := rfl
    exact ⟨s, by simp only [encoder, if_pos hkind]⟩

theorem plainPaths_installed : Engine.PlainPaths platform installed label where
  ffmpeg := by decide
  noAssignment := by decide
  preview := by
    have hpath : Shell.QuotedLiteral (File.join [platform.previewPath, label [] ++ ".jpg".toList]) := by
      decide
    exact fun _ => hpath

theorem plain_shelves (root : Loc) : PlainBelow root (filesOf shelves) := by
  have hnames : ∀ new ∈ shelved, ∀ name ∈ new.1 ++ [new.2.1], Shell.QuotedLiteral name := by
    decide
  intro rel hrel name hname
  have hmem : name ∈ root ++ rel := List.mem_append_right root hname
  rcases node_shelves hrel with hnil | ⟨new, hnew, hloc, _⟩
  · simp [hnil] at hmem
  · exact hnames new hnew name (hloc ▸ hmem)

theorem plainTarget_between {key : Key} (h : Shell.QuotedLiteral key.2) (root : Loc) :
    PlainTarget root (between key) := by
  intro sub htarget name hname
  have hmem : name ∈ root ++ sub := List.mem_append_right root hname
  rw [← htarget] at hmem
  rw [List.mem_singleton.1 hmem]
  exact h

end Sample

end Yikes
