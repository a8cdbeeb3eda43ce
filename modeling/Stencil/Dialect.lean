import Stencil.Dictionary
import Stencil.Element
import Stencil.Token.Basic
import Stencil.Unicode.Lower
import Stencil.Unicode.Space

/-! Output dialects: the patterns that write tags, attributes and code, and the rules that tell which tags
have no closing tag and which start a line. -/

namespace Stencil

inductive ClosingRule where
  /-- Tags without children, and those written as self-closing. -/
  | childless
  /-- Void elements, and tags written as self-closing. -/
  | voidElements
  /-- Exactly the tags with these names. -/
  | listed (names : List Bytes)
deriving DecidableEq, Repr

inductive LineRule where
  | blockTags
  | constant (b : Bool)
deriving DecidableEq, Repr

structure Dialect where
  name : Bytes
  /-- The type of the dialect, as reports name it. -/
  label : Bytes
  patterns : Dictionary Bytes
  /-- Templates around every token of a kind in embedded code. -/
  tokenTemplates : List (Token.Kind × Bytes)
  closing : ClosingRule
  lines : LineRule
deriving DecidableEq, Repr

namespace Dialect

def xmlDeclaration : Bytes := "<<?= \"?\" ?>xml version=\"1.0\" encoding=\"utf-8\" ?>"

def doctypes : Dictionary Bytes :=
  [("html", "<!DOCTYPE html>"),
   ("5", "<!DOCTYPE html>"),
   ("xml", xmlDeclaration),
   ("transitional", "<!DOCTYPE html PUBLIC \"-//W3C//DTD XHTML 1.0 Transitional//EN\" \"http://www.w3.org/TR/xhtml1/DTD/xhtml1-transitional.dtd\">"),
   ("strict", "<!DOCTYPE html PUBLIC \"-//W3C//DTD XHTML 1.0 Strict//EN\" \"http://www.w3.org/TR/xhtml1/DTD/xhtml1-strict.dtd\">"),
   ("frameset", "<!DOCTYPE html PUBLIC \"-//W3C//DTD XHTML 1.0 Frameset//EN\" \"http://www.w3.org/TR/xhtml1/DTD/xhtml1-frameset.dtd\">"),
   ("1.1", "<!DOCTYPE html PUBLIC \"-//W3C//DTD XHTML 1.1//EN\" \"http://www.w3.org/TR/xhtml11/DTD/xhtml11.dtd\">"),
   ("basic", "<!DOCTYPE html PUBLIC \"-//W3C//DTD XHTML Basic 1.1//EN\" \"http://www.w3.org/TR/xhtml-basic/xhtml-basic11.dtd\">"),
   ("mobile", "<!DOCTYPE html PUBLIC \"-//WAPFORUM//DTD XHTML Mobile 1.2//EN\" \"http://www.openmobilealliance.org/tech/DTD/xhtml-mobile12.dtd\">"),
   ("plist", "<!DOCTYPE plist PUBLIC \"-//Apple//DTD PLIST 1.0//EN\" \"http://www.apple.com/DTDs/PropertyList-1.0.dtd\">")]

/-- The declaration of a doctype; an empty one is left to the dialect. -/
def declaration? (value : Bytes) : Option Bytes :=
  if value.isEmpty then none
  else some ((doctypes.get? (Text.lower value)).getD ("<!DOCTYPE " ++ value ++ ">"))

/-- The patterns of the basic dialect, which every other one falls back on. -/
def basicPatterns : Dictionary Bytes :=
  [("doctype", []),
   ("open_pair_tag", "<%s>"),
   ("close_pair_tag", "</%s>"),
   ("self_closing_tag", "<%s />"),
   ("attribute_pattern", " %s=\"%s\""),
   ("boolean_attribute_pattern", " %s=\"%s\""),
   ("html_expression_escape", "htmlspecialchars(%s)"),
   ("php_handle_code", "<?php %s ?>"),
   ("php_display_code", "<?= %s ?>"),
   ("php_block_code", " \x7b%s\x7d"),
   ("php_nested_html", " ?>%s<?php "),
   ("test_value", "isset(%s)"),
   ("empty_value", "''")]

def requiredPatterns : List Bytes :=
  ["open_pair_tag", "close_pair_tag", "self_closing_tag", "attribute_pattern",
   "boolean_attribute_pattern", "php_handle_code", "php_display_code"]

def withPattern (d : Dialect) (name template : Bytes) : Dialect :=
  { d with patterns := d.patterns.insert name template }

def withTokenTemplate (d : Dialect) (kind : Token.Kind) (template : Bytes) : Dialect :=
  { d with tokenTemplates := (kind, template) :: d.tokenTemplates.filter (·.1 != kind) }

def withoutTokenTemplate (d : Dialect) (kind : Token.Kind) : Dialect :=
  { d with tokenTemplates := d.tokenTemplates.filter (·.1 != kind) }

def basic : Dialect where
  name := "basic"
  label := "*formatter.Basic"
  patterns := basicPatterns
  tokenTemplates := []
  closing := .childless
  lines := .blockTags

def xml : Dialect :=
  { basic with name := "xml", label := "*formatter.XML" }.withPattern "doctype" xmlDeclaration

def html : Dialect :=
  ((({ xml with name := "html", label := "*formatter.HTML", closing := .voidElements }
    ).withPattern "doctype" ((doctypes.get? "html").getD [])
    ).withPattern "self_closing_tag" "<%s>"
    ).withPattern "boolean_attribute_pattern" " %s"

def xhtml : Dialect :=
  ((({ html with name := "xhtml", label := "*formatter.XHTML" }
    ).withPattern "doctype" ((doctypes.get? "transitional").getD [])
    ).withPattern "self_closing_tag" "<%s />"
    ).withPattern "boolean_attribute_pattern" " %s=\"%s\""

def byName : Dictionary Dialect :=
  [("basic", basic), ("xml", xml), ("plist", xml), ("html", html), ("5", html), ("xhtml", xhtml),
   ("transitional", xhtml), ("strict", xhtml), ("frameset", xhtml), ("1.1", xhtml), ("mobile", xhtml)]

/-- The names as they are looked up: in lower case, without white space around them. -/
def normalName (name : Bytes) : Bytes := Text.lower (Text.trim name)

def voidElements : List Bytes :=
  ["area", "base", "br", "col", "embed", "hr", "img", "input", "link", "meta", "param", "source",
   "track", "wbr"]

def isVoidElement (t : Tag) : Bool :=
  t.nameExpr.isNone && voidElements.contains (Text.lower t.name)

def isSelfClosing (d : Dialect) (t : Tag) (hasChildren : Bool) : Bool :=
  match d.closing with
  | .childless => t.autoClosed || !hasChildren
  | .voidElements => t.autoClosed || isVoidElement t
  | .listed names => names.contains (t.staticName.getD [])

def startsLine (d : Dialect) (t : Tag) : Bool :=
  match d.lines with
  | .blockTags => t.block
  | .constant b => b

end Dialect

end Stencil
