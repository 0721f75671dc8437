import UtilityCss.Config.Basic

/-!
# The standard configuration

`Config.standard` is what the overlays of a project are laid over, and what a project without a
configuration file gets. `Config.template` is the text of the configuration file that a new project
starts from.
-/

namespace UtilityCss

namespace Config

/-- The files that are read unless a project says otherwise. -/
def standardContent : List String :=
  ["*.html",
    "src/**/*.\x7bhtml,js,jsx,ts,tsx,vue\x7d",
    "pages/**/*.\x7bhtml,jsx,tsx\x7d",
    "views/**/*.\x7bhtml,ejs\x7d",
    "app/**/*.\x7bhtml,jsx,tsx\x7d",
    "components/**/*.\x7bjsx,tsx,vue\x7d"]

/-- The breakpoints that every project has. -/
def standardBreakpoints : Table String String :=
  .ofList
    [("Phone", "(max-width: 767px)"),
      ("Tablet", "(min-width: 768px) and (max-width: 1023px)"),
      ("Computer", "(min-width: 1024px)"),
      ("Desktop", "(min-width: 1440px)"),
      ("mobile", "(max-width: 767px)"),
      ("tablets", "(min-width: 768px) and (max-width: 1023px)"),
      ("midLaptop", "(min-width: 1024px) and (max-width: 1439px)"),
      ("largeScreen", "(min-width: 1440px)")]

/-- The short names that every project has. -/
def standardProperties : Table String Property :=
  .ofList
    [("w", .single "width"),
      ("h", .single "height"),
      ("p", .single "padding"),
      ("m", .single "margin"),
      ("bg", .single "background"),
      ("bgColor", .single "background-color"),
      ("bColor", .single "border-color"),
      ("text", .single "color"),
      ("textColor", .single "color"),
      ("rounded", .single "border-radius"),
      ("border", .single "border-width"),
      ("px", .several ["padding-left", "padding-right"]),
      ("py", .several ["padding-top", "padding-bottom"]),
      ("mx", .several ["margin-left", "margin-right"]),
      ("my", .several ["margin-top", "margin-bottom"])]

/-- **The standard configuration.** -/
def standard : Config where
  content := standardContent
  output := "dist/HUHM.css"
  scriptOutput := none
  vocabulary := ⟨standardProperties, standardBreakpoints, ∅⟩
  settings := .standard

instance : Inhabited Config := ⟨standard⟩

/-- The name of the configuration file that a new project gets. -/
def templateName : String := "huhm.toml"

/-- The names of the configuration files that are looked for in the root of a project, in order. -/
def fileNames : List String := [templateName, "huhm.json"]

/-- The lines of the configuration file that a new project starts from. -/
def templateLines : List String :=
  ["# Files scanned for utility classes",
    "content = [",
    "  \"*.html\",",
    "  \"src/**/*.\x7bhtml,js,jsx,ts,tsx,vue\x7d\",",
    "  \"pages/**/*.\x7bhtml,jsx,tsx\x7d\",",
    "  \"components/**/*.\x7bjsx,tsx,vue\x7d\",",
    "]",
    "",
    "# Generated style sheet; the runtime script goes next to it as .js",
    "output = \"dist/HUHM.css\"",
    "",
    "[breakpoints]",
    "mobile = \"(max-width: 767px)\"",
    "tablet = \"(min-width: 768px) and (max-width: 1023px)\"",
    "laptop = \"(min-width: 1024px) and (max-width: 1439px)\"",
    "desktop = \"(min-width: 1440px)\"",
    "",
    "# Short names; a list sets several properties to the same value",
    "[properties]",
    "w = \"width\"",
    "h = \"height\"",
    "minW = \"min-width\"",
    "maxW = \"max-width\"",
    "p = \"padding\"",
    "px = [\"padding-left\", \"padding-right\"]",
    "py = [\"padding-top\", \"padding-bottom\"]",
    "m = \"margin\"",
    "mx = [\"margin-left\", \"margin-right\"]",
    "my = [\"margin-top\", \"margin-bottom\"]",
    "bg = \"background\"",
    "bgColor = \"background-color\"",
    "text = \"color\"",
    "rounded = \"border-radius\"",
    "fontSize = \"font-size\"",
    "gap = \"gap\"",
    "z = \"z-index\"",
    "",
    "[theme.colors]",
    "primary = \"#3b82f6\"",
    "secondary = \"#8b5cf6\"",
    "success = \"#10b981\"",
    "danger = \"#ef4444\"",
    "warning = \"#f59e0b\"",
    "",
    "[theme.spacing]",
    "xs = \"0.25rem\"",
    "sm = \"0.5rem\"",
    "md = \"1rem\"",
    "lg = \"1.5rem\"",
    "xl = \"2rem\"",
    "",
    "[compiler]",
    "minify = false",
    "comments = true"]

/-- **The configuration file that a new project starts from.** -/
def template : String := String.join (templateLines.map (· ++ "\n"))

end Config

end UtilityCss
