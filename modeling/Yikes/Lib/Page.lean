import Yikes.Lib.Controllers
import Yikes.Ruby.Html

/-!
# Page — what `MainController#index` shows (`lib/views/index.rhtml`)

The page lists the items of all engines, a row for each.  Of the values that are inserted the link and
the name of the file are escaped (`<%== %>`); the rest goes in as it is.  How they are escaped, and what
a statement of the loop leaves of the blanks around it, is up to the template engine (`Erubis`).
-/

namespace Yikes

open Ruby
open Ruby.Html (Token)

/-- What the template engine does to a text. -/
structure Erubis where
  /-- a value of `<%== %>` -/
  escape : Str → Str
  /-- the blanks in front of a statement, or the line break behind it -/
  blanks : Str → Str

namespace MainController

/-- A tag of the template, without values. -/
def tag (inner : String) : Token :=
  .tag inner.toList

def text (s : String) : Token :=
  .text s.toList

/-- The template down to the title. -/
def preamble : List Token :=
  [tag "!DOCTYPE html PUBLIC \"-//W3C//DTD XHTML 1.0 Transitional//EN\"\n       \"http://www.w3.org/TR/xhtml1/DTD/xhtml1-transitional.dtd\"",
    text "\n\n",
    tag "html xmlns=\"http://www.w3.org/1999/xhtml\" xml:lang=\"en\" lang=\"en\"", text "\n\n",
    tag "head", text "\n    ",
    tag "meta http-equiv=\"content-type\" content=\"text/html;charset=iso-8859-1\" /", text "\n    ",
    tag "title", text "Yikes! It's your videos on your iPod!", tag "/title", text "\n\n    "]

variable (port : Nat)

/-- The style sheets and scripts. -/
def assets : List Token :=
  [.tag ("link rel=\"Stylesheet\" href=\"".toList ++ urlBase port ++
      "/stylesheets/default.css\" type=\"text/css\" media=\"screen\" /".toList),
    text "\n    ",
    .tag ("link rel=\"Stylesheet\" href=\"".toList ++ urlBase port ++
      "/stylesheets/tablekit.css\" type=\"text/css\" media=\"screen\" /".toList),
    text "\n\n    ",
    .tag ("script src=\"".toList ++ urlBase port ++
      "/javascripts/jquery-1.2.6.js\" type=\"text/javascript\"".toList),
    tag "/script", text "\n    ",
    .tag ("script src=\"".toList ++ urlBase port ++
      "/javascripts/jquery.tablesorter.js\" type=\"text/javascript\"".toList),
    tag "/script", text "\n\n"]

/-- From there down to the first row. -/
def opening : List Token :=
  [tag "/head", text "\n\n",
    tag "script type=\"text/javascript\"",
    text "\n\n$(document).ready(function() \x7b\n\t$(\"#data\").tablesorter(\x7bwidgets: ['zebra']\x7d);\n\x7d);\n\n",
    tag "/script", text "\n\n",
    tag "body", text "\n\t",
    tag "div id=\"header\"", text "\n\t\t",
    tag "h1", text "Yikes!", tag "/h1", text "\n\t\t",
    tag "h3", text "From your computer to your iPod in a snap", tag "/h3", text "\n\t",
    tag "/div", text "\n\n\t",
    tag "div id=\"videos\"", text "\n\t\t",
    tag "h2", text "Videos recently converted:", tag "/h2", text "\n\t\t",
    tag "table id=\"data\" class=\"tablesorter\"", text "\n\t\t",
    tag "thead", text "\n\t\t\t",
    tag "tr", text "\n\t\t\t\t",
    tag "th", tag "/th", text " ", tag "!-- Succeeded icon --", text "\n\t\t\t\t",
    tag "th", text "Screenshot", tag "/th", text " ", tag "!-- Image --", text "\n\t\t\t\t",
    tag "th", text "Filename", tag "/th", text "\n\t\t\t\t",
    tag "th", text "Date", tag "/th", text "\n\t\t\t",
    tag "/tr", text "\n\t\t",
    tag "/thead", text "\n\n\t\t",
    tag "tbody", text "\n"]

def head : List Token :=
  preamble ++ (assets port ++ opening)

/-- The body of the loop, for one item; `createdAt` is the text of its `created_at`. -/
def row (erubis : Erubis) (md5 : Str → Str) (createdAt : EncodingItem → Str) (item : EncodingItem) :
    List Token :=
  [.text (erubis.blanks "\n".toList),
    text "\t\t\t", tag "tr", text "\n\t\t\t\t",
    tag "td", tag "/td", text "\n\t\t\t\t",
    tag "td",
    .tag ("img align=\"center\" width=\"50%\" height=\"50%\" src=\"".toList ++
      item.screenshotUrl port md5 ++ "\" /".toList),
    tag "/td", text "\n\t\t\t\t",
    tag "td", .tag ("a href=\"".toList ++ erubis.escape (item.sourceUrl port) ++ "\"".toList),
    .text (erubis.escape item.subpath), tag "/a", tag "/td", text "\n\t\t\t\t",
    tag "td", .text (createdAt item), tag "/td", text "\n\t\t\t",
    tag "/tr", text "\n",
    .text (erubis.blanks "\t\t\t".toList)]

/-- The template behind the loop. -/
def foot (erubis : Erubis) : List Token :=
  [.text (erubis.blanks "\n".toList),
    text "\t\t", tag "/tbody", text "\n\t\t",
    tag "/table", text "\n\n\t",
    tag "/div", text "\n\n\t",
    tag "script language=\"javascript\"", text "  ", tag "/script", text "\n\n\t",
    tag "p", text "\n\t\t",
    .tag ("a href=\"".toList ++ Str.sub (urlBase port) "http".toList "itpc".toList ++
      "/podcast\"".toList),
    text " ", .tag ("img src=\"".toList ++ urlBase port ++ "/images/itunes_subscribe.png\" /".toList),
    text " ", tag "/a", text "\n\t",
    tag "/p", text "\n",
    tag "/body", text "\n\n",
    tag "/html", text "\n"]

/-- The page of the engines. -/
def page {κ : Type} (erubis : Erubis) (md5 : Str → Str) (createdAt : EncodingItem → Str)
    (engines : Registry κ) : Str :=
  Html.render
    (head port ++ (.text (erubis.blanks "\t\t\t".toList) ::
      ((index engines).flatMap (row port erubis md5 createdAt) ++ foot port erubis)))

end MainController

end Yikes
