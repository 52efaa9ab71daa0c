/-
The fixed style sheets and the script of the pages.
-/
namespace ResourceLint.Report

/-- The style sheet, line by line. -/
def styleLines : List String :=
  ["",
   "body \x7b",
   "    font-family: -apple-system, BlinkMacSystemFont, 'Segoe UI', Roboto, Oxygen, Ubuntu, sans-serif;",
   "    line-height: 1.5;",
   "    color: #333;",
   "    max-width: 1200px;",
   "    margin: 0 auto;",
   "    padding: 20px;",
   "\x7d",
   "",
   "header \x7b",
   "    border-bottom: 2px solid #1976d2;",
   "    margin-bottom: 20px;",
   "\x7d",
   "",
   ".timestamp, .summary \x7b color: #666; \x7d",
   "",
   ".toc table \x7b border-collapse: collapse; margin-bottom: 30px; \x7d",
   ".toc td \x7b padding: 2px 8px; \x7d",
   ".toc .category \x7b font-weight: bold; padding-top: 12px; \x7d",
   ".toc .count \x7b text-align: right; \x7d",
   ".toc .error \x7b background: #d32f2f; width: 8px; \x7d",
   ".toc .warning \x7b background: #ff9800; width: 8px; \x7d",
   ".toc .info \x7b background: #2196f3; width: 8px; \x7d",
   "",
   ".issue \x7b",
   "    border: 1px solid #ddd;",
   "    border-radius: 6px;",
   "    padding: 12px 20px;",
   "    margin-bottom: 24px;",
   "\x7d",
   "",
   ".id \x7b font-family: monospace; \x7d",
   ".location \x7b font-weight: bold; \x7d",
   ".occurrence \x7b margin-bottom: 12px; \x7d",
   "",
   ".errorlines \x7b",
   "    font-family: monospace;",
   "    background: #f5f5f5;",
   "    border-left: 3px solid #ddd;",
   "    padding: 6px;",
   "    overflow-x: auto;",
   "\x7d",
   "",
   ".lineno \x7b color: #999; \x7d",
   ".errorline \x7b font-weight: bold; background: #ffebee; \x7d",
   "",
   ".metadata \x7b",
   "    font-size: 0.9em;",
   "    border-top: 1px solid #eee;",
   "    padding-top: 8px;",
   "\x7d",
   "",
   ".explanation \x7b margin: 8px 0; \x7d",
   ".error \x7b color: #d32f2f; \x7d",
   ".warning \x7b color: #e65100; \x7d",
   ".info \x7b color: #1976d2; \x7d"]

/-- The script that shows hidden occurrences, line by line. -/
def scriptLines : List String :=
  ["",
   "function reveal(id) \x7b",
   "    if (document.getElementById) \x7b",
   "        document.getElementById(id).style.display = 'block';",
   "        document.getElementById(id + 'Link').style.display = 'none';",
   "    \x7d",
   "\x7d"]

/-- The style sheet of the index, line by line. -/
def indexStyleLines : List String :=
  ["",
   "        body \x7b font-family: -apple-system, BlinkMacSystemFont, 'Segoe UI', Roboto, sans-serif; margin: 20px; \x7d",
   "        table \x7b border-collapse: collapse; \x7d",
   "        th, td \x7b padding: 4px 12px; border-bottom: 1px solid #eee; \x7d",
   "        .count \x7b text-align: right; \x7d"]

/-- Lines as one text, each of them ended. -/
def joinLines (lines : List String) : String := String.join (lines.map (· ++ "\n"))

end ResourceLint.Report
