import Yikes.Lib.Controllers
import Yikes.Properties.Pass

/-!
# Urls — where the published URLs of an item lead

The URL of a video reaches `FilesController`, which asks the application for a state it does not have,
so no path is ever built for it.  The URL of a screenshot leads to the screenshot.
-/

namespace Yikes

open Ruby

namespace StaticFileController

/-- A request for `url` reaches the controller, which builds `path`. -/
def Leads (platform : Platform) (settings : Tree) (url : Str) (controller : StaticFileController)
    (target : Str) : Prop :=
  ∃ paths settings', request url = some (controller, paths) ∧
    controller.path platform paths settings = .ok target settings'

theorem isSafe_urlBase (port : Nat) : ∀ c ∈ urlBase port, Uri.isSafe c = true := by
  intro c hc
  have hhost : "http://localhost:".toList.all Uri.isSafe = true := by
    decide
  rcases List.mem_append.1 hc with hfront | hport
  · exact List.all_eq_true.1 hhost c hfront
  · exact Uri.isSafe_of_digit (Nat.isDigit_of_mem_toDigits (by decide) (by decide) hport)

theorem urlBase_eq (port : Nat) :
    ∃ authority, urlBase port = "http://".toList ++ authority ∧ '/' ∉ authority := by
  refine ⟨"localhost:".toList ++ Nat.toDigits 10 port, rfl, ?_⟩
  intro hsep
  rcases List.mem_append.1 hsep with hfront | hport
  · revert hfront
    decide
  · have hdigit := Nat.isDigit_of_mem_toDigits (by decide) (by decide) hport
    revert hdigit
    decide

section Mount

variable {name : Str} (hsafe : name.all Uri.isSafe = true) (hsep : '/' ∉ name)
  (hquery : '?' ∉ name) (hpercent : '%' ∉ name)

include hsafe hsep hquery hpercent

/-- What a controller gets of a URL below its mount point: the segments of the escaped text in front
of the first `?`. -/
theorem request_escape (port : Nat) (rest : Str) :
    request (Uri.escape (urlBase port ++ '/' :: (name ++ '/' :: rest))) =
      map (name :: (((Uri.escape rest).takeWhile (· ≠ '?')).splitOn '/').map Uri.unescape) := by
  -- the part in front of `rest` is safe, so escaping starts behind it
  have hfront : Uri.escape (urlBase port ++ '/' :: (name ++ ['/'])) =
      urlBase port ++ '/' :: (name ++ ['/']) := by
    refine Uri.escape_of_safe ?_
    intro c hc
    have hcases : c ∈ urlBase port ∨ c ∈ name ∨ c = '/' := by
      simp only [List.mem_append, List.mem_cons, List.not_mem_nil, or_false] at hc
      tauto
    rcases hcases with hbase | hname | rfl
    · exact isSafe_urlBase port c hbase
    · exact List.all_eq_true.1 hsafe c hname
    · decide
  have hescape : Uri.escape (urlBase port ++ '/' :: (name ++ '/' :: rest)) =
      urlBase port ++ '/' :: (name ++ '/' :: Uri.escape rest) := by
    have happend := Uri.escape_append (urlBase port ++ '/' :: (name ++ ['/'])) rest
    rw [hfront] at happend
    simpa using happend
  have htake : (name ++ '/' :: Uri.escape rest).takeWhile (· ≠ '?') =
      name ++ '/' :: (Uri.escape rest).takeWhile (· ≠ '?') := by
    rw [List.takeWhile_append_of_pos]
    · simp
    · intro c hc
      have hne : c ≠ '?' := by
        rintro rfl
        exact hquery hc
      simpa using hne
  rcases urlBase_eq port with ⟨authority, hbase, hauth⟩
  rw [request, hescape, hbase, Uri.requestPath_append hauth, htake, Uri.segments_cons hsep,
    Uri.unescape_of_no_percent hpercent]

end Mount

/-! ## Videos -/

theorem request_sourceUrl (port : Nat) (item : EncodingItem) :
    ∃ paths, request (item.sourceUrl port) = some (.files, paths) := by
  have hurl : item.sourceUrl port =
      Uri.escape (urlBase port ++ '/' :: ("files".toList ++ '/' :: item.subpathTarget)) := by
    rw [EncodingItem.sourceUrl, List.append_assoc]
    rfl
  have hrequest : request (item.sourceUrl port) =
      map ("files".toList :: (((Uri.escape item.subpathTarget).takeWhile (· ≠ '?')).splitOn '/').map
        Uri.unescape) := by
    rw [hurl]
    exact request_escape (by decide) (by decide) (by decide) (by decide) port item.subpathTarget
  exact ⟨_, hrequest⟩

/-- `FilesController` builds no path. -/
theorem path_files (platform : Platform) (paths : List Str) (settings : Tree) :
    StaticFileController.files.path platform paths settings = .error noState settings := rfl

theorem not_leads_sourceUrl (platform : Platform) (settings : Tree) (port : Nat)
    (item : EncodingItem) (target : Str) :
    ¬ Leads platform settings (item.sourceUrl port) .files target := by
  rintro ⟨paths, settings', _, hpath⟩
  rw [path_files] at hpath
  cases hpath

/-! ## Screenshots -/

theorem leads_screenshotUrl {platform : Platform} {settings : Tree}
    (hready : platform.Ready settings) {md5 : Str → Str} {item : EncodingItem}
    (hdigest : ∀ c ∈ md5 item.subpath, c ∈ "0123456789abcdef".toList) (port : Nat) :
    Leads platform settings (item.screenshotUrl port md5) .preview
      (File.join [platform.previewPath, item.screenshotSubpath md5]) := by
  -- a digest and its extension need no escaping, have no separator and no query
  have hchars : ∀ c ∈ item.screenshotSubpath md5,
      Uri.isSafe c = true ∧ c ≠ '/' ∧ c ≠ '?' ∧ c ≠ '%' := by
    have hall : ("0123456789abcdef".toList ++ ".jpg".toList).all
        (fun c => Uri.isSafe c && c != '/' && c != '?' && c != '%') = true := by
      decide
    intro c hc
    have hsafe := List.all_eq_true.1 hall c
    simp only [Bool.and_eq_true, bne_iff_ne, and_assoc] at hsafe
    refine hsafe ?_
    rcases List.mem_append.1 hc with hfront | hext
    · exact List.mem_append_left _ (hdigest c hfront)
    · exact List.mem_append_right _ hext
  have hescape : Uri.escape (item.screenshotSubpath md5) = item.screenshotSubpath md5 :=
    Uri.escape_of_safe fun c hc => (hchars c hc).1
  have hquery : (item.screenshotSubpath md5).takeWhile (· ≠ '?') = item.screenshotSubpath md5 := by
    rw [List.takeWhile_eq_self_iff]
    intro c hc
    simpa using (hchars c hc).2.2.1
  have hsplit : (item.screenshotSubpath md5).splitOn '/' = [item.screenshotSubpath md5] :=
    List.splitOn_eq_singleton fun hmem => (hchars _ hmem).2.1 rfl
  have hunescape : Uri.unescape (item.screenshotSubpath md5) = item.screenshotSubpath md5 :=
    Uri.unescape_of_no_percent fun hmem => (hchars _ hmem).2.2.2 rfl
  have hurl : item.screenshotUrl port md5 =
      Uri.escape (urlBase port ++ '/' :: ("preview".toList ++ '/' :: item.screenshotSubpath md5)) := by
    rw [EncodingItem.screenshotUrl, List.append_assoc]
    rfl
  have hrequest : request (item.screenshotUrl port md5) =
      map ("preview".toList :: (((Uri.escape (item.screenshotSubpath md5)).takeWhile
        (· ≠ '?')).splitOn '/').map Uri.unescape) := by
    rw [hurl]
    exact request_escape (by decide) (by decide) (by decide) (by decide) port _
  rw [hescape, hquery, hsplit, List.map_singleton, hunescape] at hrequest
  rcases hready with ⟨settings', hdir⟩
  have htarget : getFilePath platform .preview settings = .ok platform.previewPath settings' := by
    simp [getFilePath, hdir]
  refine ⟨[item.screenshotSubpath md5], settings', hrequest, ?_⟩
  simp [path, Each.bind_eq, htarget, Each.pure_eq, File.join]

/-- For no finished item do both URLs lead where its paths say: the one of the video reaches
`FilesController`, which raises for every request.  The one of the screenshot leads to the screenshot,
wherever the preview directory can be made. -/
theorem urls_never_lead {κ : Type} (engines : Registry κ) {md5 : Str → Str}
    (hdigest : ∀ (s : Str), ∀ c ∈ md5 s, c ∈ "0123456789abcdef".toList) (platform : Platform)
    (settings : Tree) (port : Nat) :
    ∀ item ∈ MainController.index engines,
      ¬ (Leads platform settings (item.sourceUrl port) .files item.targetPath ∧
        Leads platform settings (item.screenshotUrl port md5) .preview
          (File.join [platform.previewPath, item.screenshotSubpath md5])) ∧
      (∃ paths, request (item.sourceUrl port) = some (.files, paths) ∧
        StaticFileController.files.path platform paths settings = .error noState settings) ∧
      (platform.Ready settings →
        Leads platform settings (item.screenshotUrl port md5) .preview
          (File.join [platform.previewPath, item.screenshotSubpath md5])) := by
  intro item _
  refine ⟨?_, ?_, ?_⟩
  · intro hboth
    exact not_leads_sourceUrl platform settings port item item.targetPath hboth.1
  · rcases request_sourceUrl port item with ⟨paths, hrequest⟩
    exact ⟨paths, hrequest, path_files platform paths settings⟩
  · intro hready
    exact leads_screenshotUrl hready (hdigest item.subpath) port

end StaticFileController

/-! ## A finished item -/

namespace Sample

def video : EncodingItem :=
  .new "v".toList "v/a.avi".toList "t".toList

/-- The digest of `a.avi`. -/
def digest (_ : Str) : Str := "4d96ca6e1a0d6cae9edd5622f155e776".toList

/-- The engine of `v` and `t` has converted `a.avi`. -/
def converted : Registry Unit :=
  Registry.empty.add ("v".toList, "t".toList)
    { transcoder := (), state := (State.new "v".toList).encodeSucceeded video 0 } rfl

end Sample

theorem urls_never_lead_sample :
    StaticFileController.Leads Sample.platform (Tree.empty 8)
      ({ Sample.video with succeeded := true, finishedAt := some 0 }.screenshotUrl 4000 Sample.digest)
      .preview
      (File.join [Sample.platform.previewPath, Sample.digest [] ++ ".jpg".toList]) := by
  have hall : (Sample.digest []).all (· ∈ "0123456789abcdef".toList) = true := by
    decide
  have hdigest : ∀ c ∈ Sample.digest [], c ∈ "0123456789abcdef".toList := by
    intro c hc
    simpa using List.all_eq_true.1 hall c hc
  have hitem : ({ Sample.video with succeeded := true, finishedAt := some 0 } : EncodingItem) ∈
      MainController.index Sample.converted := by
    decide
  have hready : Sample.platform.Ready (Tree.empty 8) := by
    decide
  exact (StaticFileController.urls_never_lead Sample.converted (fun _ => hdigest) Sample.platform
    (Tree.empty 8) 4000 _ hitem).2.2 hready

/-- `/files/a.mp4`, the published URL of `t/a.mp4`, makes `FilesController` raise. -/
theorem source_url_raises :
    let item : EncodingItem := { Sample.video with succeeded := true, finishedAt := some 0 }
    item ∈ MainController.index Sample.converted ∧
      item.sourceUrl 4000 = "http://localhost:4000/files/a.mp4".toList ∧
      item.targetPath = "t/a.mp4".toList ∧
      StaticFileController.request (item.sourceUrl 4000) = some (.files, ["a.mp4".toList]) ∧
      StaticFileController.files.path Sample.platform ["a.mp4".toList] (Tree.empty 8) =
        .error StaticFileController.noState (Tree.empty 8) ∧
      ¬ StaticFileController.Leads Sample.platform (Tree.empty 8) (item.sourceUrl 4000) .files
        item.targetPath := by
  refine ⟨by decide, by decide, by decide, by decide, rfl, ?_⟩
  exact StaticFileController.not_leads_sourceUrl Sample.platform (Tree.empty 8) 4000 _ _

end Yikes
